import ClassForge.Proofs.Metadata.History

/-!
# Reconciling only what is affected

After any operations every class is up to date or derives from a dirty class. So a pass over the
affected classes leaves nothing that a pass over all classes would still change.
-/

namespace ClassForge.Metadata

open ClassRecord (view)

variable {m m' : Metadata} {c : String}

structure Sound (m : Metadata) : Prop where
  keyed : m.Keyed
  covered : ∀ c, m.UpToDate c ∨ c ∈ m.affected

theorem Keyed.mem_affected (hm : m.Keyed) {x : String} :
    x ∈ m.affected ↔ ∃ d ∈ m.dirty.toNames, m.hierarchy.Above x d := hm.mem_closure

theorem upToDate_of_none (h : m.record? c = none) : m.UpToDate c := by
  intro r hr
  rw [h] at hr
  cases hr

theorem sound_empty (root : Path) : Sound { rootDir := root } where
  keyed := by
    intro c r h
    cases h
  covered c := .inl (upToDate_of_none rfl)

/-- Sources that say the same keep every class up to date that was, and the same classes affected
as long as those that were dirty are. -/
theorem Sound.of_records_eq (hs : m.Sound) (hrec : m'.records = m.records)
    (hdirty : ∀ d ∈ m.dirty.toNames, d ∈ m'.dirty.toNames) : m'.Sound := by
  have hrecord : ∀ c, m'.record? c = m.record? c := fun c => by rw [record?, record?, hrec]
  have hsame : m.SameSources m' := fun c => by rw [hrecord]
  have hm' := hsame.keyed hs.keyed
  refine ⟨hm', fun c => ?_⟩
  rcases hs.covered c with hup | haff
  · exact .inl (hup.congr hs.keyed hm' (hrecord c).symm fun x _ => hsame x)
  · obtain ⟨d, hd, habove⟩ := hs.keyed.mem_affected.1 haff
    exact .inr (hm'.mem_affected.2 ⟨d, hdirty d hd, hsame.hierarchy ▸ habove⟩)

/-- The record of one class changes, appears or goes. A class that does not derive from it in the
new hierarchy has the same sources above it as before; all others must be affected or gone. -/
theorem Sound.change (hs : m.Sound) (hm' : m'.Keyed)
    (hoff : ∀ x, x ≠ c → m'.record? x = m.record? x)
    (hdirty : ∀ d ∈ m.dirty.toNames, d ≠ c → d ∈ m'.dirty.toNames)
    (hbelow : ∀ x, m'.hierarchy.Above x c → x ∈ m'.affected ∨ m'.record? x = none) : m'.Sound := by
  refine ⟨hm', fun x => ?_⟩
  by_cases hx : m'.hierarchy.Above x c
  · exact (hbelow x hx).elim .inr fun hnone => .inl (upToDate_of_none hnone)
  -- what changed does not lie above the class, so both hierarchies agree there
  have hne : ∀ y, m'.hierarchy.Above x y → y ≠ c := by
    rintro y hy rfl
    exact hx hy
  have hagree : m'.hierarchy.AgreeAbove m.hierarchy x := by
    intro y hy
    rw [hm'.shows y, hs.keyed.shows y, hoff y (hne y hy)]
  rcases hs.covered x with hup | haff
  · refine .inl (hup.congr hs.keyed hm' (hoff x (hne x .refl)).symm fun y hy => ?_)
    rw [hoff y (hne y (hagree.of_above hy))]
  · obtain ⟨d, hd, habove⟩ := hs.keyed.mem_affected.1 haff
    have habove' := hagree.of_above habove
    exact .inr (hm'.mem_affected.2 ⟨d, hdirty d hd (hne d habove'), habove'⟩)

/-! ## Operations -/

theorem Keyed.insert (hm : m.Keyed) (r : ClassRecord)
    (hrec : m'.records = m.records.insert r.classname r) : m'.Keyed := by
  intro c r' hr
  rw [Metadata.record?, hrec, Table.get?_insert] at hr
  split at hr
  · rename_i hc
    cases hr
    exact hc.symm
  · exact hm c r' hr

theorem Keyed.erase (hm : m.Keyed) (hrec : m'.records = m.records.erase c) : m'.Keyed := by
  intro x r hr
  rw [Metadata.record?, hrec, Table.get?_erase] at hr
  split at hr
  · cases hr
  · exact hm x r hr

theorem Sound.stage (hs : m.Sound) {file : Path} {time : UInt64} {x : ClassRecord.Extraction}
    (h : ∀ c ∈ m.classOf? file, x.record.classname = c) : (m.stage file time x).Sound := by
  rcases stage_cases m file time x with ⟨_, hrec, hdirty⟩ | ⟨p, hp, hne, _⟩
  · have hm' := hs.keyed.insert (staged file time x) hrec
    refine hs.change hm' (c := x.record.classname) ?_ ?_ ?_
    · intro y hy
      rw [record?, hrec, Table.get?_insert_of_ne hy]
      rfl
    · intro d hd _
      rw [hdirty, NameSet.mem_add]
      exact .inr hd
    · intro y hy
      refine .inl (hm'.mem_affected.2 ⟨x.record.classname, ?_, hy⟩)
      rw [hdirty, NameSet.mem_add]
      exact .inl rfl
  · exact absurd (h p hp).symm hne

theorem Sound.stageAll (hs : m.Sound) {found : List Reading} (h : m.KeepsNames found) :
    (m.stageAll found).Sound := by
  induction found generalizing m with
  | nil => exact hs
  | cons reading rest ih =>
    obtain ⟨hname, hrest⟩ := h
    exact ih (hs.stage hname) hrest

theorem Sound.removeFile (hs : m.Sound) (file : Path) (t : FileTree) :
    (m.removeFile file t).2.1.Sound := by
  rcases removeFile_cases m file t with ⟨hrec, hdirty⟩ | ⟨c, hrec, hdirty⟩
  · exact hs.of_records_eq hrec fun d hd => hdirty ▸ hd
  generalize (m.removeFile file t).2.1 = m' at hrec hdirty
  have hrecord : ∀ x, m'.record? x = if x = c then none else m.record? x := by
    intro x
    rw [record?, hrec, Table.get?_erase]
    rfl
  have hmem : ∀ d, d ∈ m'.dirty.toNames ↔
      d ∈ m.hierarchy.directDerived c ∨ (d ∈ m.dirty.toNames ∧ d ≠ c) := by
    intro d
    rw [hdirty, NameSet.mem_foldl_add, NameSet.mem_erase]
    grind
  have hm' := hs.keyed.erase hrec
  refine hs.change hm' (c := c) (fun x hx => by rw [hrecord, if_neg hx])
    (fun d hd hne => (hmem d).2 (.inr ⟨hd, hne⟩)) ?_
  intro x hx
  -- the last step to the name of the dropped class is made by one that pointed at it
  rcases hx.cases_tail with rfl | ⟨d, hxd, node, hnode, htarget⟩
  · exact .inr (by rw [hrecord, if_pos rfl])
  · have hd : d ∈ m.hierarchy.directDerived c := by
      refine (hs.keyed.mirrored c d).2 ⟨node, ?_, htarget⟩
      rw [hm'.shows d, hrecord] at hnode
      split at hnode
      · cases hnode
      · rw [hs.keyed.shows d, hnode]
    exact .inl (hm'.mem_affected.2 ⟨d, (hmem d).2 (.inl hd), hxd⟩)

theorem Sound.markDirty (hs : m.Sound) (c : String) : (m.markDirty c).Sound := by
  rw [Metadata.markDirty]
  split
  · refine hs.of_records_eq rfl ?_
    intro d hd
    exact NameSet.mem_add.2 (.inr hd)
  · exact hs

theorem Sound.foldl_refresh (hs : m.Sound) (l : List String) : (l.foldl refresh m).Sound := by
  have hsame := hs.keyed.sameSources_foldl_refresh l
  refine ⟨hsame.keyed hs.keyed, fun c => ?_⟩
  rcases hs.covered c with hup | haff
  · exact .inl (hup.foldl_refresh hs.keyed l)
  · obtain ⟨records, h⟩ := foldl_refresh_eq m l
    right
    rw [affected, ← hsame.hierarchy]
    rwa [h]

theorem Sound.upToDate_reconcile (hs : m.Sound) {t : FileTree} {done : List String}
    (h : (m.reconcile t).1 = .ok done) (c : String) : (m.reconcile t).2.1.UpToDate c := by
  rcases reconcile_cases hs.keyed t with ⟨_, _, heq⟩ | ⟨e, _, herr, _⟩
  · rw [heq]
    rcases hs.covered c with hup | haff
    · exact hup.foldl_refresh hs.keyed m.affected
    · exact hs.keyed.upToDate_foldl_refresh haff
  · rw [herr] at h
    cases h

theorem Keyed.sameSources_reconcile (hm : m.Keyed) (t : FileTree) :
    m.SameSources (m.reconcile t).2.1 := by
  rcases reconcile_cases hm t with ⟨_, _, heq⟩ | ⟨_, l, _, _, heq⟩
  · rw [heq]
    exact hm.sameSources_foldl_refresh m.affected
  · rw [heq]
    exact hm.sameSources_foldl_refresh l

theorem UpToDate.reconcile (hm : m.Keyed) (h : m.UpToDate c) (t : FileTree) :
    (m.reconcile t).2.1.UpToDate c := by
  rcases reconcile_cases hm t with ⟨_, _, heq⟩ | ⟨_, l, _, _, heq⟩
  · rw [heq]
    exact h.foldl_refresh hm m.affected
  · rw [heq]
    exact h.foldl_refresh hm l

theorem Sound.reconcile (hs : m.Sound) (t : FileTree) : (m.reconcile t).2.1.Sound := by
  rcases reconcile_cases hs.keyed t with ⟨done, hok, _⟩ | ⟨_, l, _, _, heq⟩
  · exact ⟨(hs.keyed.sameSources_reconcile t).keyed hs.keyed,
      fun c => .inl (hs.upToDate_reconcile hok c)⟩
  · rw [heq]
    exact hs.foldl_refresh l

/-! ## Histories -/

theorem Sound.run (hs : m.Sound) {e : Edit} (h : m.KeepsNames (e.found m)) : (e.run m).Sound := by
  cases hadd : e.adds with
  | true =>
    rw [Edit.run_eq_stageAll hadd]
    exact hs.stageAll h
  | false =>
    cases e with
    | removeFile t file => exact hs.removeFile file t
    | markDirty c => exact hs.markDirty c
    | reconcile t => exact hs.reconcile t
    | _ => cases hadd

theorem Sound.runAll (hs : m.Sound) {edits : List Edit} (h : m.HistoryKeepsNames edits) :
    (m.runAll edits).Sound := by
  induction edits generalizing m with
  | nil => exact hs
  | cons e rest ih =>
    obtain ⟨hfirst, hrest⟩ := h
    exact ih (hs.run hfirst) hrest

def markAll (m : Metadata) : Metadata := m.classnames.foldl markDirty m

theorem foldl_markDirty_eq (m : Metadata) (l : List String) :
    ∃ dirty, l.foldl markDirty m = { m with dirty } ∧
      ∀ x, x ∈ dirty.toNames ↔ x ∈ m.dirty.toNames ∨ x ∈ l ∧ m.records.contains x = true := by
  induction l generalizing m with
  | nil => exact ⟨m.dirty, rfl, by simp⟩
  | cons c rest ih =>
    obtain ⟨dirty, heq, hmem⟩ := ih (m.markDirty c)
    rw [List.foldl_cons, heq]
    by_cases hc : m.records.contains c = true
    · rw [markDirty, if_pos hc] at hmem ⊢
      refine ⟨dirty, rfl, fun x => ?_⟩
      rw [hmem, NameSet.mem_add, List.mem_cons]
      grind
    · rw [markDirty, if_neg hc] at hmem ⊢
      refine ⟨dirty, rfl, fun x => ?_⟩
      rw [hmem, List.mem_cons]
      grind

theorem markAll_eq (m : Metadata) :
    ∃ dirty, m.markAll = { m with dirty } ∧
      ∀ c r, m.record? c = some r → c ∈ dirty.toNames := by
  obtain ⟨dirty, heq, hmem⟩ := m.foldl_markDirty_eq m.classnames
  refine ⟨dirty, heq, fun c r hr => (hmem c).2 (.inr ⟨?_, ?_⟩)⟩
  · exact Table.mem_keys.2 ⟨r, hr⟩
  · exact Table.contains_iff.2 ⟨r, hr⟩

theorem record?_markAll (m : Metadata) (c : String) : m.markAll.record? c = m.record? c := by
  obtain ⟨dirty, h, _⟩ := m.markAll_eq
  rw [h]
  rfl

theorem sameSources_markAll (m : Metadata) : m.SameSources m.markAll := by
  intro c
  rw [record?_markAll]

/-- All classes are dirty. -/
structure Raw (m : Metadata) : Prop where
  keyed : m.Keyed
  dirty : ∀ c r, m.record? c = some r → c ∈ m.dirty.toNames

theorem Keyed.raw_markAll (hm : m.Keyed) : m.markAll.Raw := by
  obtain ⟨dirty, heq, hall⟩ := m.markAll_eq
  rw [heq]
  exact ⟨hm, hall⟩

theorem Raw.mem_affected (hm : m.Raw) {r : ClassRecord} (hr : m.record? c = some r) :
    c ∈ m.affected := hm.keyed.mem_affected.2 ⟨c, hm.dirty c r hr, .refl⟩

theorem Raw.sound (hm : m.Raw) : m.Sound := by
  refine ⟨hm.keyed, fun c => ?_⟩
  rcases hr : m.record? c with _ | r
  · exact .inl (upToDate_of_none hr)
  · exact .inr (hm.mem_affected hr)

/-- Once a pass over the affected classes ends, a pass over all classes changes no derived view. -/
theorem view_reconcile_markAll (root : Path) (edits : List Edit)
    (hnames : HistoryKeepsNames { rootDir := root } edits) {t t₁ : FileTree} {done : List String}
    (hok : (runAll { rootDir := root } edits).reconcile t = (.ok done, m, t₁)) (t' : FileTree)
    (c : String) : ((m.markAll.reconcile t').2.1.record? c).map view = (m.record? c).map view := by
  have hs := (sound_empty root).runAll hnames
  have hup := hs.upToDate_reconcile (congrArg Prod.fst hok) c
  have hs₁ := hs.reconcile t
  rw [hok] at hup hs₁
  have hmarked := sameSources_markAll m
  have hm₁ := hmarked.keyed hs₁.keyed
  have hup₁ : m.markAll.UpToDate c :=
    hup.congr hs₁.keyed hm₁ (record?_markAll m c).symm fun x _ => hmarked x
  have hsame : m.SameSources (m.markAll.reconcile t').2.1 :=
    hmarked.trans (hm₁.sameSources_reconcile t')
  exact (hup.view_eq hs₁.keyed hsame (hup₁.reconcile hm₁ t')).symm

def mixinSources : FileTree :=
  { nodes := Table.ofList [("/A.js", .file "qx.Class.define(\"a.A\",\x7binclude:b.M\x7d);" 1),
      ("/M.js", .file "qx.Mixin.define(\"b.M\",\x7bmembers:\x7bf()\x7b\x7d\x7d\x7d);" 2)] }

def mixinReturns : List Edit :=
  [.addFiles mixinSources [(none, ⟨"/A.js"⟩), (none, ⟨"/M.js"⟩)] false,
    .removeFile mixinSources ⟨"/M.js"⟩, .reconcile mixinSources,
    .addFile mixinSources ⟨"/M.js"⟩ false]

theorem view_reconcile_markAll_mixinReturns :
    HistoryKeepsNames { rootDir := ⟨"/"⟩ } mixinReturns ∧
    ∃ m t₁, (runAll { rootDir := ⟨"/"⟩ } mixinReturns).reconcile mixinSources =
      (.ok ["a.A", "b.M"], m, t₁) ∧
    ∀ t' c, ((m.markAll.reconcile t').2.1.record? c).map view = (m.record? c).map view := by
  have hnames : HistoryKeepsNames { rootDir := ⟨"/"⟩ } mixinReturns := by decide +kernel
  have hok : ((runAll { rootDir := ⟨"/"⟩ } mixinReturns).reconcile mixinSources).1 =
      .ok ["a.A", "b.M"] := by decide +kernel
  rcases hrun : (runAll { rootDir := ⟨"/"⟩ } mixinReturns).reconcile mixinSources with
    ⟨result, m, t₁⟩
  rw [hrun] at hok
  cases hok
  exact ⟨hnames, m, t₁, rfl, view_reconcile_markAll ⟨"/"⟩ mixinReturns hnames hrun⟩

end ClassForge.Metadata
