import ClassForge.Metadata.Reconcile
import ClassForge.Proofs.Hierarchy

/-!
# The entries of a reconciled record

Reconciling goes through several steps over whole tables. Here each entry of the result is described
on its own: a name that the class declares keeps its entry, another is taken from the first mixin
that declares it, and an abstract class takes the remaining ones from the interfaces that bind it.
-/

namespace ClassForge

/-! ## Entries after reconciling -/

def Member.settled (g : Hierarchy) (f : String → String) (c : String) (k : Category) (n : String)
    (a : Member) : Member :=
  { ClassRecord.mapMemberTypes f a with overriddenFrom := some c, appearsIn := g.appearsIn c k n }

def Member.merged (g : Hierarchy) (c n mixin : String) (a : Member) : Member :=
  { a with overriddenFrom := none, mixin := some mixin, appearsIn := g.appearsIn c .member n }

def Member.placeholder (g : Hierarchy) (c n interface : String) (a : Member) : Member :=
  { a with
    isAbstract := true
    fromInterface := some interface
    appearsIn := g.appearsIn c .member n
    overriddenFrom := none
    mixin := none }

def Property.settled (g : Hierarchy) (f : String → String) (c n : String) (p : Property) :
    Property :=
  { p with
    check := p.check.map f
    overriddenFrom := some c
    appearsIn := g.appearsIn c .property n }

def Property.merged (g : Hierarchy) (c n mixin : String) (p : Property) : Property :=
  { p with overriddenFrom := none, mixin := some mixin, appearsIn := g.appearsIn c .property n }

namespace ClassRecord

/-! ## Declared entries -/

def ownMember? (r : ClassRecord) (n : String) : Option Member :=
  (r.members.get? n).filter Member.isOwn

def ownStatic? (r : ClassRecord) (n : String) : Option Member :=
  (r.statics.get? n).filter Member.isOwn

def ownProperty? (r : ClassRecord) (n : String) : Option Property :=
  (r.properties.get? n).filter Property.isOwn

theorem declares_member {r : ClassRecord} {n : String} :
    (HierarchyNode.ofRecord r).declares .member n = (r.ownMember? n).isSome := by
  rw [Bool.eq_iff_iff]
  simp only [HierarchyNode.declares, HierarchyNode.ofRecord, HierarchyNode.contains_ownNames,
    Option.isSome_iff_exists, ownMember?, Option.filter_eq_some_iff]

theorem declares_static {r : ClassRecord} {n : String} :
    (HierarchyNode.ofRecord r).declares .static n = (r.ownStatic? n).isSome := by
  rw [Bool.eq_iff_iff]
  simp only [HierarchyNode.declares, HierarchyNode.ofRecord, HierarchyNode.contains_ownNames,
    Option.isSome_iff_exists, ownStatic?, Option.filter_eq_some_iff]

theorem declares_property {r : ClassRecord} {n : String} :
    (HierarchyNode.ofRecord r).declares .property n = (r.ownProperty? n).isSome := by
  rw [Bool.eq_iff_iff]
  simp only [HierarchyNode.declares, HierarchyNode.ofRecord, HierarchyNode.contains_ownNames,
    Option.isSome_iff_exists, ownProperty?, Option.filter_eq_some_iff]

/-! ## Dropping what was derived, completing types -/

theorem get?_prepared_members (r : ClassRecord) (f : String → String) (n : String) :
    (r.withoutDerived.mapTypes f).members.get? n =
      (r.ownMember? n).map fun a =>
        mapMemberTypes f { a with overriddenFrom := none, appearsIn := [] } := by
  simp [withoutDerived, mapTypes, ownMember?, Option.map_map, Function.comp_def]

theorem get?_prepared_statics (r : ClassRecord) (f : String → String) (n : String) :
    (r.withoutDerived.mapTypes f).statics.get? n =
      (r.ownStatic? n).map fun a =>
        mapMemberTypes f { a with overriddenFrom := none, appearsIn := [] } := by
  simp [withoutDerived, mapTypes, ownStatic?, Option.map_map, Function.comp_def]

theorem get?_prepared_properties (r : ClassRecord) (f : String → String) (n : String) :
    (r.withoutDerived.mapTypes f).properties.get? n =
      (r.ownProperty? n).map fun p =>
        { p with check := p.check.map f, overriddenFrom := none, appearsIn := [] } := by
  simp [withoutDerived, mapTypes, ownProperty?, Option.map_map, Function.comp_def]

/-! ## Merging mixins -/

theorem get?_addMissing {α : Type} (wanted : α → Bool) (change : α → α) (t other : Table α)
    (n : String) :
    (addMissing wanted change t other).get? n =
      (t.get? n).or (((other.get? n).filter wanted).map change) := by
  rw [addMissing, Table.get?_foldl_fill fun _ a => if wanted a then some (change a) else none]
  · cases other.get? n with
    | none => rfl
    | some a => by_cases h : wanted a = true <;> simp [Option.filter_some, h]
  · rintro t ⟨k, a⟩
    rw [Table.fill]
    by_cases hw : wanted a = true <;> by_cases hk : t.contains k = true <;> simp [hw, hk]

theorem foldl_eq_of_step {step : ClassRecord → String → ClassRecord}
    (hstep : ∀ r x, ∃ members properties, step r x = { r with members, properties })
    (l : List String) (r : ClassRecord) :
    ∃ members properties, l.foldl step r = { r with members, properties } := by
  induction l generalizing r with
  | nil => exact ⟨r.members, r.properties, rfl⟩
  | cons x rest ih =>
    obtain ⟨members, properties, h⟩ := hstep r x
    rw [List.foldl_cons, h]
    exact ih _

section

variable (g : Hierarchy) (record? : String → Option ClassRecord) (r : ClassRecord) (n : String)

theorem mergeMixins_eq :
    ∃ members properties, r.mergeMixins record? = { r with members, properties } := by
  rw [mergeMixins]
  refine foldl_eq_of_step (fun r x => ?_) r.mixins r
  cases record? x with
  | none => exact ⟨r.members, r.properties, rfl⟩
  | some m => exact ⟨_, _, rfl⟩

variable {n} in
theorem get?_foldl_giving {α : Type} (table : ClassRecord → Table α)
    {step : ClassRecord → String → ClassRecord} {give : String → Option α}
    (hstep : ∀ r x, (table (step r x)).get? n = ((table r).get? n).or (give x)) (l : List String) :
    (table (l.foldl step r)).get? n = ((table r).get? n).or (l.findSome? give) := by
  induction l generalizing r with
  | nil => simp
  | cons x rest ih =>
    rw [List.foldl_cons, ih, hstep, List.findSome?_cons, Option.or_assoc]
    cases give x <;> rfl

theorem get?_mergeMixins_members :
    (r.mergeMixins record?).members.get? n =
      (r.members.get? n).or (r.mixins.findSome? fun x => (record? x).bind fun m =>
        (m.ownMember? n).map fun a =>
          { a with overriddenFrom := none, appearsIn := [], mixin := some x }) := by
  refine r.get?_foldl_giving ClassRecord.members (fun r x => ?_) r.mixins
  cases record? x with
  | none => simp
  | some m => exact get?_addMissing ..

theorem get?_mergeMixins_properties :
    (r.mergeMixins record?).properties.get? n =
      (r.properties.get? n).or (r.mixins.findSome? fun x => (record? x).bind fun m =>
        (m.ownProperty? n).map fun a =>
          { a with overriddenFrom := none, appearsIn := [], mixin := some x }) := by
  refine r.get?_foldl_giving ClassRecord.properties (fun r x => ?_) r.mixins
  cases record? x with
  | none => simp
  | some m => exact get?_addMissing ..

/-! ## Placeholders -/

theorem get?_addPlaceholders (r : ClassRecord) (g : Hierarchy) (interface : String)
    (i : ClassRecord) (n : String) :
    (r.addPlaceholders g interface i).members.get? n =
      (r.members.get? n).or
        (if (g.provenance? r.classname .member n).isNone then
          (i.ownMember? n).map (Member.placeholder g r.classname n interface)
        else none) := by
  simp only [addPlaceholders]
  rw [Table.get?_foldl_fill fun n m =>
    if m.isOwn && (g.provenance? r.classname .member n).isNone then
      some (Member.placeholder g r.classname n interface m)
    else none]
  · rw [ownMember?]
    cases i.members.get? n with
    | none => simp
    | some m => by_cases h : m.isOwn = true <;> simp [Option.filter_some, h]
  · rintro t ⟨k, m⟩
    rw [Table.fill]
    by_cases hk : t.contains k = true
    · simp [hk]
    · by_cases hw : (m.isOwn && (g.provenance? r.classname .member k).isNone) = true
      · rw [if_neg hk, if_pos hw, if_pos (by simpa [hk] using hw)]
        rfl
      · rw [if_neg hk, if_neg hw, if_neg (by simpa [hk] using hw)]
        rfl

theorem synthesize_eq :
    ∃ members, r.synthesize g record? = { r with members } := by
  rw [synthesize]
  generalize g.boundInterfaces r.classname = l
  induction l generalizing r with
  | nil => exact ⟨r.members, rfl⟩
  | cons x rest ih =>
    rw [List.foldl_cons]
    cases record? x with
    | none => exact ih r
    | some i => exact ih (r.addPlaceholders g x i)

theorem get?_synthesize :
    (r.synthesize g record?).members.get? n =
      (r.members.get? n).or
        (if (g.provenance? r.classname .member n).isNone then
          (g.boundInterfaces r.classname).findSome? fun x => (record? x).bind fun i =>
            (i.ownMember? n).map (Member.placeholder g r.classname n x)
        else none) := by
  rw [synthesize]
  generalize g.boundInterfaces r.classname = l
  induction l generalizing r with
  | nil => simp
  | cons x rest ih =>
    rw [List.foldl_cons, ih, List.findSome?_cons]
    cases record? x with
    | none => rfl
    | some i =>
      rw [get?_addPlaceholders]
      have hname : (r.addPlaceholders g x i).classname = r.classname := rfl
      simp only [hname, Option.bind_some, Option.or_assoc]
      split
      · cases i.ownMember? n <;> simp
      · simp

/-! ## Reconciling -/

def completer (record? : String → Option ClassRecord) (r : ClassRecord) : String → String :=
  resolveType (fun name => (record? name).isSome) r.packageName

def mixed (record? : String → Option ClassRecord) (r : ClassRecord) : ClassRecord :=
  (r.withoutDerived.mapTypes (r.completer record?)).mergeMixins record?

theorem mixed_eq :
    ∃ members properties, r.mixed record? =
      { r.withoutDerived.mapTypes (r.completer record?) with members, properties } :=
  mergeMixins_eq record? _

theorem classname_mixed : (r.mixed record?).classname = r.classname := by
  obtain ⟨members, properties, h⟩ := r.mixed_eq record?
  rw [h]
  rfl

theorem reconcile_eq_mixed :
    r.reconcile g record? =
      if r.isAbstract then ((r.mixed record?).trace g).synthesize g record?
      else (r.mixed record?).trace g := by
  obtain ⟨members, properties, h⟩ := r.mixed_eq record?
  have hkind : ((r.mixed record?).trace g).isAbstract = r.isAbstract := by rw [h]; rfl
  rw [← hkind]
  rfl

theorem reconcile_eq :
    ∃ members properties, r.reconcile g record? =
      { r with
        members
        properties
        statics := ((r.withoutDerived.mapTypes (r.completer record?)).statics).map
          (traceMember g r.classname .static)
        construct := r.construct.map (mapMemberTypes (r.completer record?))
        destruct := r.destruct.map (mapMemberTypes (r.completer record?))
        events := r.events.map fun _ e =>
          { e with typeText := e.typeText.map (r.completer record?) } } := by
  obtain ⟨members, properties, h⟩ := r.mixed_eq record?
  rw [reconcile_eq_mixed]
  split
  · obtain ⟨members', h'⟩ := synthesize_eq g record? ((r.mixed record?).trace g)
    rw [h', h]
    exact ⟨members', _, rfl⟩
  · rw [h]
    exact ⟨_, _, rfl⟩

@[simp] theorem classname_reconcile : (r.reconcile g record?).classname = r.classname := by
  obtain ⟨members, properties, h⟩ := r.reconcile_eq g record?
  rw [h]

end

variable {g : Hierarchy} {record? : String → Option ClassRecord} {r : ClassRecord}

theorem traceMember_settled {f : String → String} {c n : String} {k : Category} {a : Member}
    (ha : a.isOwn = true) (hp : g.provenance? c k n = some (.overriddenFrom c)) :
    traceMember g c k n (mapMemberTypes f { a with overriddenFrom := none, appearsIn := [] }) =
      a.settled g f c k n := by
  have ha' : (mapMemberTypes f { a with overriddenFrom := none, appearsIn := [] }).isOwn = true :=
    ha
  rw [traceMember, hp]
  simp only [ha', if_true]
  rfl

theorem findSome?_mixins_eq {β : Type} (hg : g.Shows record?) {k : Category} {n : String}
    {own? : ClassRecord → Option β}
    (hown : ∀ m, (HierarchyNode.ofRecord m).declares k n = (own? m).isSome) (l : List String)
    (change : String → β → β) :
    (l.findSome? fun x => (record? x).bind fun m => (own? m).map (change x)) =
      (l.find? fun x => g.declares x k n).bind fun x => (record? x).bind fun m =>
        (own? m).map (change x) := by
  induction l with
  | nil => rfl
  | cons x rest ih =>
    rw [List.findSome?_cons, List.find?_cons, hg.declares, ih]
    rcases hx : record? x with _ | m
    · rfl
    · rcases ho : own? m with _ | b
      · simp [hown, ho]
      · simp [hx, hown, ho]

/-- Tracing an entry that a class declares or takes from its first mixin that declares it: the
hierarchy finds the name where the entry comes from. -/
theorem map_trace_eq {β : Type} (hg : g.Shows record?) (hr : record? r.classname = some r)
    {k : Category} {n : String} {own? : ClassRecord → Option β}
    (hown : ∀ m, (HierarchyNode.ofRecord m).declares k n = (own? m).isSome)
    {trace prepared settled : β → β} {taken merged : String → β → β}
    (hsettled : g.provenance? r.classname k n = some (.overriddenFrom r.classname) →
      ∀ a, own? r = some a → trace (prepared a) = settled a)
    (hmerged : ∀ x, g.provenance? r.classname k n = some (.mixin x) →
      ∀ a, trace (taken x a) = merged x a) :
    (((own? r).map prepared).or (r.mixins.findSome? fun x => (record? x).bind fun m =>
      (own? m).map (taken x))).map trace =
    ((own? r).map settled).or (r.mixins.findSome? fun x => (record? x).bind fun m =>
      (own? m).map (merged x)) := by
  rw [findSome?_mixins_eq hg hown, findSome?_mixins_eq hg hown]
  rcases ho : own? r with _ | a
  · have hdecl : (HierarchyNode.ofRecord r).declares k n = false := by rw [hown, ho]; rfl
    rcases hx : r.mixins.find? fun x => g.declares x k n with _ | x
    · rfl
    · have hp := hg.provenance?_mixin hr hdecl hx
      simp only [Option.map_none, Option.none_or, Option.bind_some, Option.map_bind,
        Function.comp_def, Option.map_map, hmerged x hp]
  · have hdecl : (HierarchyNode.ofRecord r).declares k n = true := by rw [hown, ho]; rfl
    rw [Option.map_some, Option.some_or, Option.map_some, hsettled (hg.provenance?_own hr hdecl) a ho]
    rfl

section

variable (hg : g.Shows record?) (hr : record? r.classname = some r) (n : String)
include hg hr

theorem get?_trace_members :
    ((r.mixed record?).trace g).members.get? n =
      ((r.ownMember? n).map (Member.settled g (r.completer record?) r.classname .member n)).or
        (r.mixins.findSome? fun x => (record? x).bind fun m =>
          (m.ownMember? n).map (Member.merged g r.classname n x)) := by
  rw [trace, Table.get?_map, classname_mixed, mixed, get?_mergeMixins_members,
    get?_prepared_members]
  refine map_trace_eq hg hr (fun _ => declares_member) ?_ ?_
  · intro hp a ho
    exact traceMember_settled (Option.filter_eq_some_iff.1 ho).2 hp
  · intro x hp a
    rw [traceMember, hp]
    rfl

theorem get?_reconcile_members :
    (r.reconcile g record?).members.get? n =
      ((r.ownMember? n).map (Member.settled g (r.completer record?) r.classname .member n)).or
        ((r.mixins.findSome? fun x => (record? x).bind fun m =>
            (m.ownMember? n).map (Member.merged g r.classname n x)).or
          (if r.isAbstract && (g.provenance? r.classname .member n).isNone then
            (g.boundInterfaces r.classname).findSome? fun x => (record? x).bind fun i =>
              (i.ownMember? n).map (Member.placeholder g r.classname n x)
          else none)) := by
  have hname : ((r.mixed record?).trace g).classname = r.classname := r.classname_mixed record?
  rw [reconcile_eq_mixed]
  by_cases habs : r.isAbstract = true
  · rw [if_pos habs, get?_synthesize, get?_trace_members hg hr, hname, Option.or_assoc, habs,
      Bool.true_and]
  · simp [habs, get?_trace_members hg hr]

theorem get?_reconcile_statics :
    (r.reconcile g record?).statics.get? n =
      (r.ownStatic? n).map (Member.settled g (r.completer record?) r.classname .static n) := by
  obtain ⟨members, properties, h⟩ := r.reconcile_eq g record?
  rw [h, Table.get?_map, get?_prepared_statics]
  rcases ho : r.ownStatic? n with _ | a
  · rfl
  · have hdecl : (HierarchyNode.ofRecord r).declares .static n = true := by
      rw [declares_static, ho]; rfl
    have ha : a.isOwn = true := (Option.filter_eq_some_iff.1 ho).2
    simp only [Option.map_some]
    rw [traceMember_settled ha (hg.provenance?_own hr hdecl)]

theorem get?_reconcile_properties :
    (r.reconcile g record?).properties.get? n =
      ((r.ownProperty? n).map (Property.settled g (r.completer record?) r.classname n)).or
        (r.mixins.findSome? fun x => (record? x).bind fun m =>
          (m.ownProperty? n).map (Property.merged g r.classname n x)) := by
  have hprops : (r.reconcile g record?).properties = ((r.mixed record?).trace g).properties := by
    rw [reconcile_eq_mixed]
    split
    · obtain ⟨members, h⟩ := synthesize_eq g record? ((r.mixed record?).trace g)
      rw [h]
    · rfl
  rw [hprops, trace, Table.get?_map, classname_mixed, mixed, get?_mergeMixins_properties,
    get?_prepared_properties]
  refine map_trace_eq hg hr (fun _ => declares_property) ?_ ?_
  · intro hp a ho
    have hown : ({ a with
        check := a.check.map (r.completer record?)
        overriddenFrom := none
        appearsIn := [] } : Property).isOwn = true := (Option.filter_eq_some_iff.1 ho).2
    rw [traceProperty, hp]
    simp only [hown, if_true]
    rfl
  · intro x hp a
    rw [traceProperty, hp]
    rfl

/-! ## Own entries stay own entries -/

omit hg hr in
theorem eq_false_of_findSome? {β : Type} {isOwn : β → Bool} {own? : ClassRecord → Option β}
    {change : String → β → β} (h : ∀ x a, isOwn (change x a) = false) {l : List String} {b : β}
    (hb : (l.findSome? fun x => (record? x).bind fun m => (own? m).map (change x)) = some b) :
    isOwn b = false := by
  obtain ⟨x, _, hx⟩ := List.exists_of_findSome?_eq_some hb
  simp only [Option.bind_eq_some_iff, Option.map_eq_some_iff] at hx
  obtain ⟨_, _, a, _, rfl⟩ := hx
  exact h x a

theorem ownMember?_reconcile :
    (r.reconcile g record?).ownMember? n =
      (r.ownMember? n).map (Member.settled g (r.completer record?) r.classname .member n) := by
  rw [ownMember?, get?_reconcile_members hg hr]
  rcases ho : r.ownMember? n with _ | a
  · simp only [Option.map_none, Option.none_or]
    -- neither a merged entry nor a placeholder is one of the class itself
    rw [Option.filter_eq_none_iff]
    intro b hb
    rw [Option.or_eq_some_iff] at hb
    rw [Bool.not_eq_true]
    rcases hb with hb | ⟨_, hb⟩
    · exact eq_false_of_findSome? (by simp [Member.isOwn, Member.merged]) hb
    · split at hb
      · exact eq_false_of_findSome? (by simp [Member.isOwn, Member.placeholder]) hb
      · cases hb
  · have ha : a.isOwn = true := (Option.filter_eq_some_iff.1 ho).2
    have ha' : (a.settled g (r.completer record?) r.classname .member n).isOwn = true := ha
    simp [Option.filter_some, ha']

theorem ownStatic?_reconcile :
    (r.reconcile g record?).ownStatic? n =
      (r.ownStatic? n).map (Member.settled g (r.completer record?) r.classname .static n) := by
  rw [ownStatic?, get?_reconcile_statics hg hr]
  rcases ho : r.ownStatic? n with _ | a
  · rfl
  · have ha : a.isOwn = true := (Option.filter_eq_some_iff.1 ho).2
    have ha' : (a.settled g (r.completer record?) r.classname .static n).isOwn = true := ha
    simp [Option.filter_some, ha']

theorem ownProperty?_reconcile :
    (r.reconcile g record?).ownProperty? n =
      (r.ownProperty? n).map (Property.settled g (r.completer record?) r.classname n) := by
  rw [ownProperty?, get?_reconcile_properties hg hr]
  rcases ho : r.ownProperty? n with _ | p
  · simp only [Option.map_none, Option.none_or]
    rw [Option.filter_eq_none_iff]
    intro b hb
    rw [Bool.not_eq_true]
    exact eq_false_of_findSome? (by simp [Property.isOwn, Property.merged]) hb
  · have hp : p.isOwn = true := (Option.filter_eq_some_iff.1 ho).2
    have hp' : (p.settled g (r.completer record?) r.classname n).isOwn = true := hp
    simp [Option.filter_some, hp']

end

end ClassRecord

end ClassForge
