import ClassForge.Proofs.Metadata.Incremental
import ClassForge.Proofs.Metadata.Stored
import ClassForge.Proofs.Reconcile.Fixed

/-!
# Reconciling twice

A pass goes through the classes in the order of their names. A class takes the entries of a mixin or
an interface that comes before it with completed types, and those of one that comes after it as
their source has them. So a second pass changes nothing exactly if the types that are taken from
later classes need no completion, and completing declared types a second time changes none.
-/

namespace ClassForge.Metadata

open ClassRecord (bare mapMemberTypes)

variable {m m' m'' : Metadata} {c n : String} {r : ClassRecord} {t : FileTree}

/-! ## A pass over all classes -/

/-- The second metadata is the first after a pass over all its classes. -/
structure Passed (m m' : Metadata) : Prop where
  keyed : m.Keyed
  same : m.SameSources m'
  record? : ∀ c, m'.record? c = (m.record? c).map (·.reconcile m.hierarchy (m.midway m' c))

theorem pairwise_affected (m : Metadata) : m.affected.Pairwise (· < ·) :=
  List.pairwise_map.2 (m.hierarchy.derivedClosure m.dirty.toNames).sorted

theorem Keyed.passed_foldl_refresh (hm : m.Keyed) {l : List String} (hl : l.Pairwise (· < ·))
    (hall : ∀ c r, m.record? c = some r → c ∈ l) : m.Passed (l.foldl Metadata.refresh m) where
  keyed := hm
  same := hm.sameSources_foldl_refresh l
  record? c := by
    by_cases hc : c ∈ l
    · exact hm.record?_foldl_refresh hl hc
    · rcases hr : m.record? c with _ | r
      · rw [record?_foldl_refresh_of_not_mem hc, hr]
        rfl
      · exact absurd (hall c r hr) hc

theorem Raw.passed (hm : m.Raw) {t t' : FileTree} {done : List String}
    (h : m.reconcile t = (.ok done, m', t')) : m.Passed m' := by
  rcases reconcile_cases hm.keyed t with ⟨_, _, heq⟩ | ⟨e, _, herr, _⟩
  · rw [h] at heq
    obtain rfl : m' = _ := heq
    have hp := hm.keyed.passed_foldl_refresh (pairwise_affected m) fun _ _ => hm.mem_affected
    exact ⟨hp.keyed, hp.same, hp.record?⟩
  · rw [h] at herr
    cases herr

def completing (m : Metadata) (c : String) : String → String :=
  ClassRecord.resolveType (fun x => (m.record? x).isSome) (ClassRecord.packageOf c)

theorem isSome_eq_of_bare {record? record'? : String → Option ClassRecord}
    (h : ∀ x, (record? x).map bare = (record'? x).map bare) :
    (fun x => (record? x).isSome) = fun x => (record'? x).isSome := by
  funext x
  have := congrArg Option.isSome (h x)
  rwa [Option.isSome_map, Option.isSome_map] at this

theorem completer_eq {record? : String → Option ClassRecord}
    (h : ∀ x, (record? x).map bare = (m.record? x).map bare) :
    r.completer record? = m.completing r.classname := by
  rw [ClassRecord.completer, completing, isSome_eq_of_bare h]
  rfl

theorem SameSources.completing (h : m.SameSources m') (c : String) :
    m'.completing c = m.completing c := by
  rw [Metadata.completing, Metadata.completing, isSome_eq_of_bare h]

namespace Passed

variable (h : m.Passed m')

include h

theorem midway_bare (c x : String) : (m.midway m' c x).map bare = (m.record? x).map bare := by
  rw [midway]
  split
  · exact (h.same x).symm
  · rfl

theorem shows (c : String) : m.hierarchy.Shows (m.midway m' c) :=
  ClassRecord.shows_of_bare h.keyed.shows (h.midway_bare c)

theorem hierarchy : m'.hierarchy = m.hierarchy := h.same.hierarchy.symm

theorem keyed' : m'.Keyed := h.same.keyed h.keyed

theorem ownMember? (s n : String) :
    (m'.record? s).bind (·.ownMember? n) =
      ((m.record? s).bind (·.ownMember? n)).map
        (Member.settled m.hierarchy (m.completing s) s .member n) := by
  rw [h.record? s]
  rcases hr : m.record? s with _ | r
  · rfl
  · obtain rfl := h.keyed s r hr
    have hself : m.midway m' r.classname r.classname = some r := (midway_self m m' _).trans hr
    simp only [Option.map_some, Option.bind_some]
    rw [ClassRecord.ownMember?_reconcile (h.shows _) hself, completer_eq (h.midway_bare _)]

theorem ownProperty? (s n : String) :
    (m'.record? s).bind (·.ownProperty? n) =
      ((m.record? s).bind (·.ownProperty? n)).map
        (Property.settled m.hierarchy (m.completing s) s n) := by
  rw [h.record? s]
  rcases hr : m.record? s with _ | r
  · rfl
  · obtain rfl := h.keyed s r hr
    have hself : m.midway m' r.classname r.classname = some r := (midway_self m m' _).trans hr
    simp only [Option.map_some, Option.bind_some]
    rw [ClassRecord.ownProperty?_reconcile (h.shows _) hself, completer_eq (h.midway_bare _)]

theorem before (hr : m'.record? c = some r) :
    ∃ r₀, m.midway m' r₀.classname r₀.classname = some r₀ ∧ r₀.classname = c ∧
      r = r₀.reconcile m.hierarchy (m.midway m' r₀.classname) := by
  rw [h.record? c, Option.map_eq_some_iff] at hr
  obtain ⟨r₀, hr₀, rfl⟩ := hr
  obtain rfl := h.keyed c r₀ hr₀
  exact ⟨r₀, (midway_self m m' _).trans hr₀, rfl, rfl⟩

theorem placed (hr : m'.record? c = some r) : r.Placed m'.hierarchy := by
  obtain ⟨r₀, hself, rfl, rfl⟩ := h.before hr
  rw [h.hierarchy]
  exact ClassRecord.placed_reconcile (h.shows _) hself

theorem get?_members (hr : m'.record? c = some r) (ho : r.ownMember? n = none) :
    r.members.get? n = (r.lender? m'.hierarchy n).bind fun l =>
      ((m.midway m' c l.name).bind (·.ownMember? n)).map (Member.lent m'.hierarchy c n l) := by
  obtain ⟨r₀, hself, rfl, rfl⟩ := h.before hr
  rw [ClassRecord.ownMember?_reconcile (h.shows _) hself, Option.map_eq_none_iff] at ho
  rw [ClassRecord.get?_reconcile_members_lent (h.shows _) hself ho, h.hierarchy,
    ClassRecord.lender?_reconcile]

theorem get?_properties (hr : m'.record? c = some r) (ho : r.ownProperty? n = none) :
    r.properties.get? n = (r.propertyLender? m'.hierarchy n).bind fun x =>
      ((m.midway m' c x).bind (·.ownProperty? n)).map (Property.merged m'.hierarchy c n x) := by
  obtain ⟨r₀, hself, rfl, rfl⟩ := h.before hr
  rw [ClassRecord.ownProperty?_reconcile (h.shows _) hself, Option.map_eq_none_iff] at ho
  rw [ClassRecord.get?_reconcile_properties_lent (h.shows _) hself ho, h.hierarchy,
    ClassRecord.propertyLender?_reconcile]

theorem retaken_member (hr : m'.record? c = some r) (ho : r.ownMember? n = none)
    {l : Lender} (hl : r.lender? m'.hierarchy n = some l) (hlt : c < l.name) :
    ((m'.record? l.name).bind (·.ownMember? n)).map (Member.lent m'.hierarchy c n l) =
      (r.members.get? n).map (mapMemberTypes (m'.completing l.name)) := by
  rw [h.get?_members hr ho, hl, Option.bind_some, midway_of_lt m m' hlt, h.ownMember?,
    h.same.completing, Option.map_map, Option.map_map]
  congr 1
  funext a
  exact Member.lent_settled ..

theorem retaken_property (hr : m'.record? c = some r) (ho : r.ownProperty? n = none)
    {x : String} (hx : r.propertyLender? m'.hierarchy n = some x)
    (hlt : c < x) :
    ((m'.record? x).bind (·.ownProperty? n)).map (Property.merged m'.hierarchy c n x) =
      (r.properties.get? n).map fun p => { p with check := p.check.map (m'.completing x) } := by
  rw [h.get?_properties hr ho, hx, Option.bind_some, midway_of_lt m m' hlt, h.ownProperty?,
    h.same.completing, Option.map_map, Option.map_map]
  rfl

end Passed

/-! ## Complete metadata -/

/-- Completing types once more changes none: neither those that a class declares, nor those of what
it has from a mixin or an interface that comes after it. -/
def Complete (m : Metadata) : Prop :=
  ∀ e ∈ m.records.entries, (∀ ty ∈ e.2.declaredTypes, m.completing e.1 ty = ty) ∧
    ∀ p ∈ e.2.takenTypes, e.1 < p.1 → m.completing p.1 p.2 = p.2

instance (m : Metadata) : Decidable m.Complete :=
  inferInstanceAs (Decidable (∀ e ∈ m.records.entries, _ ∧ _))

theorem complete_iff : m.Complete ↔ ∀ c r, m.record? c = some r →
    r.Fixed (m.completing c) ∧
    (∀ n a, r.members.get? n = some a → ∀ s, a.source? = some s → c < s →
      mapMemberTypes (m.completing s) a = a) ∧
    ∀ n p, r.properties.get? n = some p → ∀ s, p.mixin = some s → c < s →
      p.check.map (m.completing s) = p.check := by
  simp only [Complete, Prod.forall, Table.mem_entries, ClassRecord.fixed_iff,
    ClassRecord.mem_takenTypes, Member.mapMemberTypes_eq_self_iff, ClassRecord.map_eq_self_iff]
  refine forall_congr' fun c => forall_congr' fun r => imp_congr_right fun _ =>
    and_congr_right fun _ => ?_
  grind

/-- In complete metadata, what a class takes it would take again as it is. -/
theorem Complete.get?_members (hm : m'.Complete) (h : m.Passed m')
    (hr : m'.record? r.classname = some r) (ho : r.ownMember? n = none) :
    (r.reconcile m'.hierarchy m'.record?).members.get? n = r.members.get? n := by
  have hshows := h.keyed'.shows
  have hget := h.get?_members hr ho
  rw [ClassRecord.get?_reconcile_members_lent hshows hr ho]
  rcases hl : r.lender? m'.hierarchy n with _ | l
  · rw [hget, hl]
    rfl
  rw [hl, Option.bind_some] at hget
  rw [Option.bind_some]
  rcases midway_of_ne m m' (ClassRecord.lender?_ne hshows hr ho hl) with heq | ⟨hlt, _⟩
  -- from a class that comes before it was taken as it still is
  · rw [hget, heq]
  · rw [h.retaken_member hr ho hl hlt]
    rcases ha : r.members.get? n with _ | a
    · rfl
    · obtain ⟨b, _, rfl⟩ := Option.map_eq_some_iff.1 (hget.symm.trans ha)
      obtain ⟨_, hmembers, _⟩ := complete_iff.1 hm _ r hr
      rw [Option.map_some, hmembers n _ ha _ (Member.source?_lent ..) hlt]

theorem Complete.get?_properties (hm : m'.Complete) (h : m.Passed m')
    (hr : m'.record? r.classname = some r) (ho : r.ownProperty? n = none) :
    (r.reconcile m'.hierarchy m'.record?).properties.get? n = r.properties.get? n := by
  have hshows := h.keyed'.shows
  have hget := h.get?_properties hr ho
  rw [ClassRecord.get?_reconcile_properties_lent hshows hr ho]
  rcases hx : r.propertyLender? m'.hierarchy n with _ | x
  · rw [hget, hx]
    rfl
  rw [hx, Option.bind_some] at hget
  rw [Option.bind_some]
  rcases midway_of_ne m m' (ClassRecord.propertyLender?_ne hshows hr ho hx) with heq | ⟨hlt, _⟩
  · rw [hget, heq]
  · rw [h.retaken_property hr ho hx hlt]
    rcases hp : r.properties.get? n with _ | p
    · rfl
    · obtain ⟨q, _, rfl⟩ := Option.map_eq_some_iff.1 (hget.symm.trans hp)
      obtain ⟨_, _, hproperties⟩ := complete_iff.1 hm _ r hr
      rw [Option.map_some, hproperties n _ hp x rfl hlt]

theorem Complete.reconcile_eq (hm : m'.Complete) (h : m.Passed m') (hr : m'.record? c = some r) :
    r.reconcile m'.hierarchy m'.record? = r := by
  obtain rfl := h.keyed' c r hr
  refine (h.placed hr).reconcile_eq h.keyed'.shows hr ?_ (fun n => hm.get?_members h hr)
    fun n => hm.get?_properties h hr
  rw [completer_eq fun _ => rfl]
  exact (complete_iff.1 hm _ r hr).1

theorem refresh_eq_self (h : ∀ r, m.record? c = some r → r.reconcile m.hierarchy m.record? = r) :
    m.refresh c = m := by
  rw [refresh]
  rcases hr : m.record? c with _ | r
  · rfl
  · have hrecords : m.records.insert c r = m.records := by
      apply Table.ext_get?
      intro x
      rw [Table.get?_insert]
      split
      · rename_i hx
        rw [hx]
        exact hr.symm
      · rfl
    simp only [h r hr, hrecords]

theorem Complete.foldl_refresh_eq (hm : m'.Complete) (h : m.Passed m') (l : List String) :
    l.foldl refresh m' = m' := by
  induction l with
  | nil => rfl
  | cons c rest ih =>
    rw [List.foldl_cons, refresh_eq_self fun r hr => hm.reconcile_eq h hr]
    exact ih

/-- If a second pass leaves a class alone, what it took from a later one has complete types. -/
theorem Passed.complete_member (h : m.Passed m') (h' : m'.Passed m'') (hr : m'.record? c = some r)
    (hr'' : m''.record? c = some r) {a : Member} (ha : r.members.get? n = some a) {s : String}
    (hs : a.source? = some s) (hlt : c < s) : mapMemberTypes (m'.completing s) a = a := by
  have ho : r.ownMember? n = none := by
    rw [ClassRecord.ownMember?, ha, Option.filter_some, if_neg]
    rw [Member.isOwn_iff, hs]
    exact Option.some_ne_none s
  have hget := h.get?_members hr ho
  rw [ha, eq_comm, Option.bind_eq_some_iff] at hget
  obtain ⟨l, hl, hlent⟩ := hget
  obtain ⟨b, _, rfl⟩ := Option.map_eq_some_iff.1 hlent
  obtain rfl : l.name = s := by rwa [Member.source?_lent, Option.some.injEq] at hs
  have hagain := h'.get?_members hr'' ho
  rw [h'.hierarchy, hl, Option.bind_some, midway_of_lt m' m'' hlt, h.retaken_member hr ho hl hlt,
    ha, Option.map_some, Option.some.injEq] at hagain
  exact hagain.symm

theorem Passed.complete_property (h : m.Passed m') (h' : m'.Passed m'')
    (hr : m'.record? c = some r) (hr'' : m''.record? c = some r) {p : Property}
    (hp : r.properties.get? n = some p) {s : String} (hs : p.mixin = some s) (hlt : c < s) :
    p.check.map (m'.completing s) = p.check := by
  have ho : r.ownProperty? n = none := by
    rw [ClassRecord.ownProperty?, hp, Option.filter_some, if_neg]
    simp [Property.isOwn, hs]
  have hget := h.get?_properties hr ho
  rw [hp, eq_comm, Option.bind_eq_some_iff] at hget
  obtain ⟨x, hx, hmerged⟩ := hget
  obtain ⟨q, _, rfl⟩ := Option.map_eq_some_iff.1 hmerged
  obtain rfl : x = s := Option.some.inj hs
  have hagain := h'.get?_properties hr'' ho
  rw [h'.hierarchy, hx, Option.bind_some, midway_of_lt m' m'' hlt, h.retaken_property hr ho hx hlt,
    hp, Option.map_some, Option.some.injEq] at hagain
  exact (congrArg Property.check hagain).symm

theorem Passed.complete (h : m.Passed m') (h' : m'.Passed m'') (heq : m''.records = m'.records) :
    m'.Complete := by
  refine complete_iff.2 fun c r hr => ?_
  have hr'' : m''.record? c = some r := (congrArg (·.get? c) heq).trans hr
  refine ⟨?_, fun n a ha s => h.complete_member h' hr hr'' ha,
    fun n p hp s => h.complete_property h' hr hr'' hp⟩
  rw [h'.record? c, hr, Option.map_some, Option.some.injEq] at hr''
  obtain rfl := h'.keyed c r hr
  have hfixed := (h.placed hr).fixed (h'.shows _) ((midway_self m' m'' _).trans hr) hr''
  rwa [completer_eq (h'.midway_bare _)] at hfixed

/-! ## Added files -/

theorem Keyed.stage (hm : m.Keyed) (file : Path) (time : UInt64) (x : ClassRecord.Extraction) :
    (m.stage file time x).Keyed := by
  rcases stage_cases m file time x with ⟨_, hrec, _⟩ | ⟨p, _, _, hrec, _⟩
  · exact hm.insert (staged file time x) hrec
  · have hm₁ : (m.forget p).Keyed := hm.erase rfl
    exact hm₁.insert (staged file time x) hrec

theorem Raw.stage (hm : m.Raw) (file : Path) (time : UInt64) (x : ClassRecord.Extraction) :
    (m.stage file time x).Raw := by
  refine ⟨hm.keyed.stage file time x, fun c r hr => ?_⟩
  rcases stage_cases m file time x with ⟨_, hrec, hdirty⟩ | ⟨p, _, _, hrec, hdirty⟩
  · rw [record?, hrec, Table.get?_insert] at hr
    rw [hdirty, NameSet.mem_add]
    split at hr
    · rename_i hc
      exact .inl hc
    · exact .inr (hm.dirty c r hr)
  · rw [record?, hrec, Table.get?_insert, Table.get?_erase] at hr
    rw [hdirty, NameSet.mem_add, NameSet.mem_erase]
    split at hr
    · rename_i hc
      exact .inl hc
    · split at hr
      · cases hr
      · rename_i hp
        exact .inr ⟨hp, hm.dirty c r hr⟩

theorem Raw.stageAll (hm : m.Raw) (found : List Reading) : (m.stageAll found).Raw := by
  induction found generalizing m with
  | nil => exact hm
  | cons reading rest ih =>
    obtain ⟨file, time, x⟩ := reading
    exact ih (hm.stage file time x)

theorem Raw.runAll (hm : m.Raw) {edits : List Edit} (hadds : ∀ e ∈ edits, e.adds = true) :
    (m.runAll edits).Raw := by
  induction edits generalizing m with
  | nil => exact hm
  | cons e rest ih =>
    refine ih ?_ fun e he => hadds e (List.mem_cons_of_mem _ he)
    rw [Edit.run_eq_stageAll (hadds e List.mem_cons_self)]
    exact hm.stageAll _

theorem raw_empty (root : Path) : Raw { rootDir := root } where
  keyed := (sound_empty root).keyed
  dirty c r h := by cases h

/-! ## The second pass -/

theorem Complete.reconcile_markAll (hm : m'.Complete) (h : m.Passed m') {t₁ : FileTree}
    {done : List String} (h' : m'.markAll.reconcile t = (.ok done, m'', t₁)) :
    m'' = { m' with dirty := .empty } := by
  obtain ⟨dirty, heq, _⟩ := m'.markAll_eq
  have hm₁ : m'.markAll.Complete := by
    rw [heq]
    exact hm
  have hp₁ : m.Passed m'.markAll := by
    rw [heq]
    exact ⟨h.keyed, h.same, h.record?⟩
  rcases reconcile_cases hp₁.keyed' t with ⟨_, _, hrun⟩ | ⟨e, _, herr, _⟩
  · rw [h', hm₁.foldl_refresh_eq hp₁, heq] at hrun
    exact hrun
  · rw [h'] at herr
    cases herr

/-- After files are added and reconciled, reconciling all classes again leaves every record as it is
exactly if the metadata is complete. Saving then writes nothing. -/
theorem records_reconcile_markAll_iff (root : Path) (edits : List Edit)
    (hadds : ∀ e ∈ edits, e.adds = true) {t₀ t₁ t₂ t₃ : FileTree} {done done' : List String}
    (h : (runAll { rootDir := root } edits).reconcile t₀ = (.ok done, m, t₁))
    (h' : m.markAll.reconcile t₂ = (.ok done', m', t₃)) :
    (m'.records = m.records ↔ m.Complete) ∧
      (m.Complete → ∀ t, m.Stored t → m'.save.run t = (.ok (), t)) := by
  have hp := ((raw_empty root).runAll hadds).passed h
  refine ⟨⟨fun hrec => ?_, fun hc => ?_⟩, fun hc t hstored => ?_⟩
  · have hp' := hp.keyed'.raw_markAll.passed h'
    obtain ⟨dirty, heq, _⟩ := m.markAll_eq
    rw [heq] at hp'
    exact hp.complete ⟨hp'.keyed, hp'.same, hp'.record?⟩ hrec
  · rw [hc.reconcile_markAll hp h']
  · rw [hc.reconcile_markAll hp h']
    exact Stored.run_save ⟨hstored.records, hstored.index⟩

/-! ## A mixin before and after the class -/

def mixinFiles (c : String) : FileTree :=
  { nodes := Table.ofList
      [("/A.js", .file ("qx.Class.define(\"" ++ c ++ "\",\x7binclude:b.M\x7d);") 1),
        ("/M.js", .file "qx.Mixin.define(\"b.M\",\x7bproperties:\x7bp:\"W\"\x7d\x7d);" 2),
        ("/W.js", .file "qx.Class.define(\"b.W\",\x7b\x7d);" 3)] }

def mixinAdded (c : String) : List Edit :=
  [.addFiles (mixinFiles c) [(none, ⟨"/A.js"⟩), (none, ⟨"/M.js"⟩), (none, ⟨"/W.js"⟩)] false]

def firstPass (c : String) : Except StoreError (List String) × Metadata × FileTree :=
  (runAll { rootDir := ⟨"/"⟩ } (mixinAdded c)).reconcile (mixinFiles c)

def secondPass (c : String) : Except StoreError (List String) × Metadata × FileTree :=
  (firstPass c).2.1.markAll.reconcile (firstPass c).2.2

def mixinCheck? (m : Metadata) (c : String) : Option String :=
  ((m.records.get? c).bind (·.properties.get? "p")).bind (·.check)

theorem records_reconcile_markAll_iff_earlyMixin :
    (∀ e ∈ mixinAdded "c.A", e.adds = true) ∧
    (firstPass "c.A").1 = .ok ["b.M", "b.W", "c.A"] ∧
    (secondPass "c.A").1 = .ok ["b.M", "b.W", "c.A"] ∧
    (firstPass "c.A").2.1.mixinCheck? "c.A" = some "b.W" ∧
    (secondPass "c.A").2.1.records = (firstPass "c.A").2.1.records := by
  have hadds : ∀ e ∈ mixinAdded "c.A", e.adds = true := by simp [mixinAdded, Edit.adds]
  have hrun : (firstPass "c.A").1 = .ok ["b.M", "b.W", "c.A"] ∧
      (secondPass "c.A").1 = .ok ["b.M", "b.W", "c.A"] ∧
      (firstPass "c.A").2.1.mixinCheck? "c.A" = some "b.W" ∧
      (firstPass "c.A").2.1.Complete := by decide +kernel
  obtain ⟨hfirst, hsecond, hcheck, hcomplete⟩ := hrun
  refine ⟨hadds, hfirst, hsecond, hcheck, ?_⟩
  rcases h : firstPass "c.A" with ⟨result, m, t₁⟩
  rcases h' : secondPass "c.A" with ⟨result', m', t₂⟩
  rw [h] at hfirst hcomplete
  rw [h'] at hsecond
  rw [secondPass, h] at h'
  rw [firstPass] at h
  cases hfirst
  cases hsecond
  exact (records_reconcile_markAll_iff ⟨"/"⟩ _ hadds h h').1.2 hcomplete

theorem records_reconcile_lateMixin :
    (firstPass "a.A").1 = .ok ["a.A", "b.M", "b.W"] ∧
    (secondPass "a.A").1 = .ok ["a.A", "b.M", "b.W"] ∧
    (secondPass "a.A").2.1.records ≠ (firstPass "a.A").2.1.records := by
  have hrun : (firstPass "a.A").1 = .ok ["a.A", "b.M", "b.W"] ∧
      (secondPass "a.A").1 = .ok ["a.A", "b.M", "b.W"] ∧
      (firstPass "a.A").2.1.mixinCheck? "a.A" = some "W" ∧
      (secondPass "a.A").2.1.mixinCheck? "a.A" = some "b.W" := by decide +kernel
  obtain ⟨hfirst, hsecond, hcheck, hcheck'⟩ := hrun
  refine ⟨hfirst, hsecond, fun heq => ?_⟩
  rw [mixinCheck?] at hcheck hcheck'
  rw [heq, hcheck] at hcheck'
  simp at hcheck'

end ClassForge.Metadata
