import ClassForge.Proofs.Reconcile.View

/-!
# Passes over the metadata

A pass reconciles classes one after another, each against what the records of the others are by
then. It never changes what the sources say, so the hierarchy stays the same throughout, and every
class it goes through is up to date when it ends.
-/

namespace ClassForge.Metadata

open ClassRecord (bare view)

variable {m m' : Metadata} {c x : String}

/-! ## Records and the hierarchy -/

/-- Every record is kept under the name of its class. -/
def Keyed (m : Metadata) : Prop := ∀ c r, m.record? c = some r → r.classname = c

theorem Keyed.record? (hm : m.Keyed) {r : ClassRecord} (h : m.record? c = some r) :
    m.record? r.classname = some r := by
  rw [hm c r h, h]

theorem Keyed.nodup (hm : m.Keyed) : (m.records.values.map ClassRecord.classname).Nodup := by
  have hkeys : m.records.values.map ClassRecord.classname = m.records.entries.map Prod.fst := by
    rw [Table.values, List.map_map]
    apply List.map_congr_left
    rintro ⟨k, r⟩ he
    exact hm k r (Table.mem_entries.1 he)
  rw [hkeys]
  refine (List.pairwise_map.2 m.records.sorted).imp ?_
  intro a b hab he
  exact String.lt_irrefl _ (he ▸ hab)

theorem Keyed.shows (hm : m.Keyed) : m.hierarchy.Shows m.record? := by
  intro c
  rcases hr : m.record? c with _ | r
  · rcases hn : m.hierarchy.nodes.get? c with _ | n
    · rfl
    · obtain ⟨r, hmem, rfl, _⟩ := (Hierarchy.nodes_build hm.nodup).1 hn
      obtain ⟨k, hk⟩ := Table.mem_values.1 hmem
      have : m.record? r.classname = some r := hm.record? (c := k) hk
      rw [hr] at this
      cases this
  · refine (Hierarchy.nodes_build hm.nodup).2 ⟨r, Table.mem_values.2 ⟨c, hr⟩, hm c r hr, rfl⟩

theorem Keyed.mirrored (hm : m.Keyed) : m.hierarchy.Mirrored := Hierarchy.mirrored_build hm.nodup

theorem Keyed.mem_closure (hm : m.Keyed) :
    x ∈ (m.hierarchy.derivedClosure m.dirty.toNames).toNames ↔
      ∃ d ∈ m.dirty.toNames, m.hierarchy.Above x d := hm.mirrored.mem_derivedClosure

/-! ## What the sources say -/

def SameSources (m m' : Metadata) : Prop :=
  ∀ c, (m.record? c).map bare = (m'.record? c).map bare

theorem SameSources.refl (m : Metadata) : m.SameSources m := fun _ => rfl

theorem SameSources.trans {m₁ m₂ m₃ : Metadata} (h : m₁.SameSources m₂) (h' : m₂.SameSources m₃) :
    m₁.SameSources m₃ := fun c => (h c).trans (h' c)

theorem SameSources.record? (h : m.SameSources m') {r : ClassRecord} (hr : m.record? c = some r) :
    ∃ r', m'.record? c = some r' ∧ r'.bare = r.bare := by
  have := h c
  rw [hr, Option.map_some, eq_comm, Option.map_eq_some_iff] at this
  exact this

theorem SameSources.symm (h : m.SameSources m') : m'.SameSources m := fun c => (h c).symm

theorem SameSources.keyed (h : m.SameSources m') (hm : m.Keyed) : m'.Keyed := by
  intro c r' hr'
  obtain ⟨r, hr, hbare⟩ := h.symm.record? hr'
  rw [← hm c r hr, ← ClassRecord.classname_bare r, hbare]
  rfl

theorem SameSources.hierarchy (h : m.SameSources m') : m.hierarchy = m'.hierarchy := by
  let skeleton (r : ClassRecord) : String × HierarchyNode :=
    (r.classname, HierarchyNode.ofRecord r)
  have hskeleton : m.records.map (fun _ r => skeleton r) =
      m'.records.map fun _ r => skeleton r := by
    apply Table.ext_get?
    intro c
    rw [Table.get?_map, Table.get?_map]
    have hbare : ∀ o : Option ClassRecord, o.map skeleton = (o.map bare).map skeleton := by
      intro o
      cases o with
      | none => rfl
      | some r => simp [skeleton, ClassRecord.ofRecord_bare, ClassRecord.classname_bare]
    exact (hbare _).trans ((congrArg (Option.map skeleton) (h c)).trans (hbare _).symm)
  apply Hierarchy.build_congr
  have hvalues := congrArg Table.values hskeleton
  simpa only [Table.values, Table.map, List.map_map, Function.comp_def] using hvalues

/-! ## Up to date -/

def UpToDate (m : Metadata) (c : String) : Prop :=
  ∀ r, m.record? c = some r → r.view = (r.reconcile m.hierarchy m.record?).view

theorem UpToDate.congr (hm : m.Keyed) (hm' : m'.Keyed) (hc : m.record? c = m'.record? c)
    (h : ∀ x, m.hierarchy.Above c x → (m.record? x).map bare = (m'.record? x).map bare)
    (hup : m.UpToDate c) : m'.UpToDate c := by
  intro r hr'
  have hr : m.record? c = some r := hc.trans hr'
  obtain rfl := hm c r hr
  rw [hup r hr]
  exact ClassRecord.view_reconcile_congr hm.shows hm'.shows hr hr' rfl h

theorem UpToDate.view_eq (hm : m.Keyed) (h : m.SameSources m') (hup : m.UpToDate c)
    (hup' : m'.UpToDate c) : (m.record? c).map view = (m'.record? c).map view := by
  rcases hr : m.record? c with _ | r
  · have hnone := h c
    rw [hr, Option.map_none, eq_comm, Option.map_eq_none_iff] at hnone
    rw [hnone]
  · obtain ⟨r', hr', hbare⟩ := h.record? hr
    have hm' := h.keyed hm
    simp only [hr', Option.map_some, Option.some.injEq]
    rw [hup r hr, hup' r' hr']
    exact ClassRecord.view_reconcile_congr hm.shows hm'.shows (hm.record? hr) (hm'.record? hr')
      hbare.symm fun x _ => h x

/-! ## Reconciling one class -/

def refresh (m : Metadata) (c : String) : Metadata :=
  match m.record? c with
  | some r => { m with records := m.records.insert c (r.reconcile m.hierarchy m.record?) }
  | none => m

theorem record?_refresh (m : Metadata) (c x : String) :
    (m.refresh c).record? x =
      if x = c then (m.record? c).map (·.reconcile m.hierarchy m.record?) else m.record? x := by
  rw [refresh]
  rcases hr : m.record? c with _ | r
  · by_cases h : x = c
    · simp [h, hr]
    · simp [h]
  · simp only [record?, Table.get?_insert]
    by_cases h : x = c <;> simp [h]

theorem Keyed.sameSources_refresh (hm : m.Keyed) (c : String) : m.SameSources (m.refresh c) := by
  intro x
  rw [record?_refresh]
  by_cases h : x = c
  · subst h
    rw [if_pos rfl]
    rcases hr : m.record? x with _ | r
    · rfl
    · simp [ClassRecord.bare_reconcile hm.shows (hm.record? hr)]
  · rw [if_neg h]

theorem Keyed.refresh (hm : m.Keyed) (c : String) : (m.refresh c).Keyed :=
  (hm.sameSources_refresh c).keyed hm

theorem Keyed.hierarchy_refresh (hm : m.Keyed) (c : String) :
    (m.refresh c).hierarchy = m.hierarchy := (hm.sameSources_refresh c).hierarchy.symm

theorem Keyed.upToDate_refresh (hm : m.Keyed) (c : String) : (m.refresh c).UpToDate c := by
  intro r hr
  rw [record?_refresh, if_pos rfl, Option.map_eq_some_iff] at hr
  obtain ⟨r, hr, rfl⟩ := hr
  have hm' := hm.refresh c
  have hr' : (m.refresh c).record? c = some (r.reconcile m.hierarchy m.record?) := by
    rw [record?_refresh, if_pos rfl, hr]; rfl
  exact ClassRecord.view_reconcile_congr hm.shows hm'.shows (hm.record? hr) (hm'.record? hr')
    (ClassRecord.bare_reconcile hm.shows (hm.record? hr)).symm
    fun x _ => hm.sameSources_refresh c x

theorem UpToDate.refresh (hm : m.Keyed) (h : m.UpToDate x) (c : String) :
    (m.refresh c).UpToDate x := by
  by_cases hx : x = c
  · subst hx
    exact hm.upToDate_refresh x
  · refine h.congr hm (hm.refresh c) ?_ fun y _ => hm.sameSources_refresh c y
    rw [record?_refresh, if_neg hx]

/-! ## Reconciling several classes in turn -/

theorem Keyed.sameSources_foldl_refresh (hm : m.Keyed) (l : List String) :
    m.SameSources (l.foldl Metadata.refresh m) := by
  induction l generalizing m with
  | nil => exact .refl m
  | cons c rest ih => exact (hm.sameSources_refresh c).trans (ih (hm.refresh c))

theorem UpToDate.foldl_refresh (hm : m.Keyed) (h : m.UpToDate x) (l : List String) :
    (l.foldl Metadata.refresh m).UpToDate x := by
  induction l generalizing m with
  | nil => exact h
  | cons c rest ih => exact ih (hm.refresh c) (h.refresh hm c)

theorem Keyed.upToDate_foldl_refresh (hm : m.Keyed) {l : List String} (hx : x ∈ l) :
    (l.foldl Metadata.refresh m).UpToDate x := by
  induction l generalizing m with
  | nil => cases hx
  | cons c rest ih =>
    rcases List.mem_cons.1 hx with rfl | hx
    · exact (hm.upToDate_refresh x).foldl_refresh (hm.refresh x) rest
    · exact ih (hm.refresh c) hx

theorem record?_foldl_refresh_of_not_mem {l : List String} (hx : x ∉ l) :
    (l.foldl Metadata.refresh m).record? x = m.record? x := by
  induction l generalizing m with
  | nil => rfl
  | cons c rest ih =>
    have hne : x ≠ c := fun he => hx (he ▸ List.mem_cons_self)
    rw [List.foldl_cons, ih fun h => hx (List.mem_cons_of_mem _ h), record?_refresh, if_neg hne]

def midway (m m' : Metadata) (c x : String) : Option ClassRecord :=
  if x < c then m'.record? x else m.record? x

theorem midway_self (m m' : Metadata) (c : String) : m.midway m' c c = m.record? c :=
  if_neg (String.lt_irrefl c)

theorem midway_of_lt (m m' : Metadata) (h : c < x) : m.midway m' c x = m.record? x :=
  if_neg fun hx => String.lt_irrefl c (String.lt_trans h hx)

theorem midway_of_ne (m m' : Metadata) (h : x ≠ c) :
    m.midway m' c x = m'.record? x ∨ c < x ∧ m.midway m' c x = m.record? x := by
  by_cases hlt : x < c
  · exact .inl (if_pos hlt)
  · refine .inr ⟨?_, if_neg hlt⟩
    exact Decidable.byContradiction fun hge => h (String.le_antisymm hge hlt)

/-- Each class is reconciled against the new records of the classes before it and the old ones of
the classes after it. -/
theorem Keyed.record?_foldl_refresh (hm : m.Keyed) {l : List String} (hl : l.Pairwise (· < ·))
    (hx : x ∈ l) : (l.foldl Metadata.refresh m).record? x =
      (m.record? x).map (·.reconcile m.hierarchy (m.midway (l.foldl Metadata.refresh m) x)) := by
  induction l generalizing m with
  | nil => cases hx
  | cons c rest ih =>
    obtain ⟨hc, hrest⟩ := List.pairwise_cons.1 hl
    rw [List.foldl_cons]
    rcases List.mem_cons.1 hx with rfl | hx
    · -- its turn comes before that of all the others
      have hnot : x ∉ rest := fun h => String.lt_irrefl x (hc x h)
      have hmidway : m.midway (rest.foldl Metadata.refresh (m.refresh x)) x = m.record? := by
        funext y
        rw [midway]
        split
        · rename_i hyx
          have hne : y ≠ x := fun h => String.lt_irrefl x (h ▸ hyx)
          have hy : y ∉ rest := fun h => String.lt_irrefl y (String.lt_trans hyx (hc y h))
          rw [record?_foldl_refresh_of_not_mem hy, record?_refresh, if_neg hne]
        · rfl
      rw [record?_foldl_refresh_of_not_mem hnot, record?_refresh, if_pos rfl, hmidway]
    · have hne : x ≠ c := fun h => String.lt_irrefl c (h ▸ hc x hx)
      rw [ih (hm.refresh c) hrest hx, hm.hierarchy_refresh, record?_refresh, if_neg hne]
      congr 2
      funext r
      congr 1
      funext y
      rw [midway, midway]
      split
      · rfl
      · rename_i hyx
        have hne : y ≠ c := fun h => hyx (h ▸ hc x hx)
        rw [record?_refresh, if_neg hne]

theorem foldl_refresh_eq (m : Metadata) (l : List String) :
    ∃ records, l.foldl Metadata.refresh m = { m with records } := by
  induction l generalizing m with
  | nil => exact ⟨m.records, rfl⟩
  | cons c rest ih =>
    obtain ⟨records, h⟩ := ih (m.refresh c)
    rw [List.foldl_cons, h, Metadata.refresh]
    cases m.record? c with
    | none => exact ⟨records, rfl⟩
    | some r => exact ⟨records, rfl⟩

/-! ## The pass over the dirty classes -/

theorem reconcileOne_eq (m : Metadata) (c : String) (t : FileTree) :
    (reconcileOne m.hierarchy c m t).2.1 = m.refresh c := by
  rw [reconcileOne, Metadata.refresh]
  cases m.record? c <;> rfl

theorem reconcileEach_eq (hm : m.Keyed) (l : List String) (t : FileTree) :
    ∃ l', l' <+: l ∧ (reconcileEach m.hierarchy l m t).2.1 = l'.foldl Metadata.refresh m ∧
      ∀ done, (reconcileEach m.hierarchy l m t).1 = .ok done → l' = l := by
  induction l generalizing m t with
  | nil => exact ⟨[], List.prefix_rfl, by rw [reconcileEach]; rfl, fun _ _ => rfl⟩
  | cons c rest ih =>
    have hone := reconcileOne_eq m c t
    rw [reconcileEach]
    rcases hrun : reconcileOne m.hierarchy c m t with ⟨e | done, m₁, t₁⟩
    · -- a class that cannot be stored has been reconciled all the same
      rw [hrun] at hone
      refine ⟨[c], List.cons_prefix_cons.2 ⟨rfl, List.nil_prefix⟩, hone, ?_⟩
      intro done h
      cases h
    · rw [hrun] at hone
      obtain rfl : m₁ = m.refresh c := hone
      have ih := ih (hm.refresh c) t₁
      rw [hm.hierarchy_refresh c] at ih
      obtain ⟨l', hl', heq, hok⟩ := ih
      dsimp only
      rcases hrest : reconcileEach m.hierarchy rest (m.refresh c) t₁ with ⟨e | more, m₂, t₂⟩
      · rw [hrest] at heq
        refine ⟨c :: l', List.cons_prefix_cons.2 ⟨rfl, hl'⟩, heq, ?_⟩
        intro all h
        cases h
      · rw [hrest] at heq hok
        refine ⟨c :: l', List.cons_prefix_cons.2 ⟨rfl, hl'⟩, heq, ?_⟩
        intro all h
        rw [hok more rfl]

def affected (m : Metadata) : List String := (m.hierarchy.derivedClosure m.dirty.toNames).toNames

/-- Reconciling the metadata either goes through all affected classes, and none is dirty then, or
fails on the way and leaves the dirty classes dirty. -/
theorem reconcile_cases (hm : m.Keyed) (t : FileTree) :
    (∃ done, (m.reconcile t).1 = .ok done ∧
      (m.reconcile t).2.1 = { m.affected.foldl Metadata.refresh m with dirty := .empty }) ∨
    ∃ e l, (m.reconcile t).1 = .error e ∧ l <+: m.affected ∧
      (m.reconcile t).2.1 = l.foldl Metadata.refresh m := by
  rw [reconcile]
  by_cases hd : m.dirty.isEmpty = true
  · have hempty : m.dirty = .empty := by
      apply Table.ext_entries
      exact List.isEmpty_iff.1 hd
    have hnone : m.affected = [] := by
      rw [List.eq_nil_iff_forall_not_mem]
      intro x hx
      obtain ⟨d, hd', _⟩ := hm.mem_closure.1 hx
      rw [hempty] at hd'
      simp at hd'
    refine .inl ⟨[], by rw [if_pos hd], ?_⟩
    rw [if_pos hd, hnone, List.foldl_nil, ← hempty]
  · rw [if_neg hd]
    obtain ⟨l, hl, heq, hok⟩ := reconcileEach_eq hm m.affected t
    simp only [affected] at heq hok hl ⊢
    rcases hrun : reconcileEach m.hierarchy (m.hierarchy.derivedClosure m.dirty.toNames).toNames m t
      with ⟨e | done, m₁, t₁⟩
    · rw [hrun] at heq
      exact .inr ⟨e, l, rfl, hl, heq⟩
    · rw [hrun] at heq hok
      refine .inl ⟨done, rfl, ?_⟩
      rw [hok done rfl] at heq
      rw [← heq]

/-! ## What a pass keeps -/

theorem kept_reconcileEach {P : Metadata → Prop}
    (hrecord : ∀ m g c r, m.record? c = some r → P m →
      P { m with records := m.records.insert c (r.reconcile g m.record?) })
    (hm : P m) (g : Hierarchy) (l : List String) (t : FileTree) : P (reconcileEach g l m t).2.1 := by
  induction l generalizing m t with
  | nil =>
    rw [reconcileEach]
    exact hm
  | cons c rest ih =>
    have hone : P (reconcileOne g c m t).2.1 := by
      rw [reconcileOne]
      cases hr : m.record? c with
      | none => exact hm
      | some r => exact hrecord m g c r hr hm
    rw [reconcileEach]
    rcases hrun : reconcileOne g c m t with ⟨failure | done, m₁, t₁⟩
    · rw [hrun] at hone
      exact hone
    · rw [hrun] at hone
      have hrest := ih hone t₁
      dsimp only
      rcases hrun' : reconcileEach g rest m₁ t₁ with ⟨failure | more, m₂, t₂⟩ <;>
        rw [hrun'] at hrest <;> exact hrest

theorem kept_reconcile {P : Metadata → Prop}
    (hrecord : ∀ m g c r, m.record? c = some r → P m →
      P { m with records := m.records.insert c (r.reconcile g m.record?) })
    (hclean : ∀ m : Metadata, P m → P { m with dirty := .empty }) (hm : P m) (t : FileTree) :
    P (m.reconcile t).2.1 := by
  rw [reconcile]
  split
  · exact hm
  · have heach := kept_reconcileEach hrecord hm m.hierarchy
      (m.hierarchy.derivedClosure m.dirty.toNames).toNames t
    dsimp only
    split <;> rename_i hrun <;> rw [hrun] at heach
    · exact hclean _ heach
    · exact heach

end ClassForge.Metadata
