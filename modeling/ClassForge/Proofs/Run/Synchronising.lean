import ClassForge.Proofs.Definitions
import ClassForge.Proofs.Files.Names
import ClassForge.Proofs.Metadata.Loaded
import ClassForge.Proofs.Metadata.Staging
import ClassForge.Run.Basic

/-!
# Bringing metadata in line

Before a build the stored metadata is brought in line with the classes that are there. The records of
classes that are gone are dropped by the files they come from, and a file is read again if its time is
not that of the record. After that the metadata reflects the classes exactly if these two tests do not
miss a change: a class that is gone has its source to itself, a file with the time of the record is the
one the record comes from, and no file was that of another class that is listed before its own.
-/

namespace ClassForge

open Metadata (Reading InOrder)

namespace Run

variable {m m₁ m' : Metadata} {t t₁ t' : FileTree} {classes : Table Path} {c : String}
  {records : List ClassRecord}
  {p q : Path}

/-! ## Dropping what is gone -/

def goneRecords (m : Metadata) (classes : Table Path) : List ClassRecord :=
  (m.classnames.filter fun c => !classes.contains c).filterMap m.record?

theorem mem_goneRecords {r : ClassRecord} :
    r ∈ goneRecords m classes ↔ ∃ c, m.record? c = some r ∧ classes.get? c = none := by
  simp only [goneRecords, List.mem_filterMap, List.mem_filter, Metadata.mem_classnames, Table.contains,
    Bool.not_eq_true', Option.isSome_eq_false_iff, Option.isNone_iff_eq_none]
  constructor
  · rintro ⟨c, ⟨-, hnone⟩, hr⟩
    exact ⟨c, hr, hnone⟩
  · rintro ⟨c, hr, hnone⟩
    exact ⟨c, ⟨⟨r, hr⟩, hnone⟩, hr⟩

def Sources (records : List ClassRecord) (q : Path) : Prop :=
  ∃ r ∈ records, (Path.mk r.sourceFilename).plain = q.plain

instance (records : List ClassRecord) (q : Path) : Decidable (Sources records q) :=
  inferInstanceAs (Decidable (∃ r ∈ records, _))

theorem sources_append {r : ClassRecord} :
    Sources (records ++ [r]) q ↔ Sources records q ∨ (Path.mk r.sourceFilename).plain = q.plain := by
  simp [Sources, or_and_right, exists_or]

structure Dropped (m : Metadata) (t : FileTree) (records : List ClassRecord) (m₁ : Metadata)
    (t₁ : FileTree) : Prop where
  rootDir : m₁.rootDir = m.rootDir
  classOf? : ∀ q, m₁.classOf? q = if Sources records q then none else m.classOf? q
  record? : ∀ c, m₁.record? c =
    if ∃ r ∈ records, m.classOf? ⟨r.sourceFilename⟩ = some c then none else m.record? c
  thinned : t.Thinned t₁ m.places

theorem Dropped.refl (m : Metadata) (t : FileTree) : Dropped m t [] m t :=
  ⟨rfl, fun q => by simp [Sources], fun c => by simp, (FileTree.Thinned.refl t).mono (by simp)⟩

theorem Dropped.record?_of_some (h : Dropped m t records m₁ t₁) {r : ClassRecord}
    (hr : m₁.record? c = some r) : m.record? c = some r := by
  rw [h.record?] at hr
  split_ifs at hr
  exact hr

theorem Dropped.classOf?_of_some (h : Dropped m t records m₁ t₁) (hq : m₁.classOf? q = some c) :
    m.classOf? q = some c := by
  rw [h.classOf?] at hq
  split_ifs at hq
  exact hq

theorem Dropped.classnames_subset (h : Dropped m t records m₁ t₁) :
    m₁.classnames ⊆ m.classnames := by
  intro c hc
  obtain ⟨r, hr⟩ := Metadata.mem_classnames.1 hc
  exact Metadata.mem_classnames.2 ⟨r, h.record?_of_some hr⟩

theorem Dropped.removeFile (h : Dropped m t records m₁ t₁) (hm : m.Backed t) (r : ClassRecord) :
    Dropped m t (records ++ [r]) (m₁.removeFile ⟨r.sourceFilename⟩ t₁).2.1
      (m₁.removeFile ⟨r.sourceFilename⟩ t₁).2.2 := by
  have hbacked : m₁.Backed t := by
    intro c hc
    rw [h.rootDir]
    exact hm c (h.classnames_subset hc)
  have hplaces : m₁.places ⊆ m.places := by
    rw [Metadata.places, Metadata.places, h.rootDir]
    exact List.map_subset _ h.classnames_subset
  obtain ⟨m₂, t₂, hrun, hthin⟩ := hbacked.removeFile h.thinned ⟨r.sourceFilename⟩
  have hremoval := Metadata.removal_removeFile m₁ ⟨r.sourceFilename⟩ t₁
  rw [hrun] at hremoval ⊢
  dsimp only at hremoval ⊢
  refine ⟨hremoval.rootDir.trans h.rootDir, fun q => ?_, fun c => ?_,
    hthin.mono (List.append_subset.2 ⟨List.Subset.refl _, hplaces⟩)⟩
  · rw [hremoval.classOf?, h.classOf?]
    simp only [sources_append, eq_comm (a := q.plain)]
    by_cases hq : Sources records q <;> simp [hq]
  · -- a source that has been removed before was not registered under a class that is still known
    have hsource : Sources records ⟨r.sourceFilename⟩ → m.classOf? ⟨r.sourceFilename⟩ = some c →
        ∃ s ∈ records, m.classOf? ⟨s.sourceFilename⟩ = some c := by
      rintro ⟨s, hs, hplain⟩ hfile
      exact ⟨s, hs, (congrArg m.files.get? hplain).trans hfile⟩
    rw [hremoval.record?, h.record?, h.classOf?]
    simp only [List.mem_append, List.mem_singleton, or_and_right, exists_or, exists_eq_left,
      Except.ok.injEq]
    by_cases hrecords : ∃ s ∈ records, m.classOf? ⟨s.sourceFilename⟩ = some c
    · simp [hrecords]
    · by_cases hfile : m.classOf? ⟨r.sourceFilename⟩ = some c
      · have hnot : ¬ Sources records ⟨r.sourceFilename⟩ := fun h => hrecords (hsource h hfile)
        simp [hfile, hnot]
      · have hne : (if Sources records ⟨r.sourceFilename⟩ then none
            else m.classOf? ⟨r.sourceFilename⟩) ≠ some c := by
          split_ifs
          · simp
          · exact hfile
        simp [hrecords, hfile, hne]

theorem Dropped.removeAll (h : Dropped m t records m₁ t₁) (hm : m.Backed t)
    (rest : List ClassRecord) :
    Dropped m t (records ++ rest)
      (rest.foldl (fun (m, t) r => (m.removeFile ⟨r.sourceFilename⟩ t).2) (m₁, t₁)).1
      (rest.foldl (fun (m, t) r => (m.removeFile ⟨r.sourceFilename⟩ t).2) (m₁, t₁)).2 := by
  induction rest generalizing records m₁ t₁ with
  | nil => simpa using h
  | cons r rest ih =>
    have hrest := ih (h.removeFile hm r)
    rw [List.append_assoc, List.singleton_append] at hrest
    exact hrest

theorem dropped_dropStale (hm : m.Backed t) (classes : Table Path) :
    Dropped m t (goneRecords m classes) (dropStale m t classes).1 (dropStale m t classes).2 :=
  (Dropped.refl m t).removeAll hm (goneRecords m classes)

/-! ## Reading what is there -/

def Declares (t : FileTree) (classes : Table Path) : Prop :=
  ∀ e ∈ classes.entries,
    (ClassRecord.ofFile t e.2 (some e.1)).toOption.map (·.record.classname) = some e.1

instance (t : FileTree) (classes : Table Path) : Decidable (Declares t classes) :=
  inferInstanceAs (Decidable (∀ e ∈ classes.entries, _))

def Apart (classes : Table Path) (places : List Trail) : Prop :=
  ∀ e ∈ classes.entries, ∀ place ∈ places, FileTree.keyOf e.2.trail ≠ FileTree.keyOf place

instance (classes : Table Path) (places : List Trail) : Decidable (Apart classes places) :=
  inferInstanceAs (Decidable (∀ e ∈ classes.entries, ∀ place ∈ places, _))

theorem Declares.exists_ofFile (h : Declares t classes) (hc : classes.get? c = some p) :
    ∃ x, ClassRecord.ofFile t p (some c) = .ok x ∧ x.record.classname = c := by
  have hentry := h (c, p) (Table.mem_entries.2 hc)
  cases hx : ClassRecord.ofFile t p (some c) with
  | error e =>
    rw [hx] at hentry
    cases hentry
  | ok x =>
    rw [hx] at hentry
    exact ⟨x, rfl, Option.some.inj hentry⟩

theorem Declares.exists_read (h : Declares t classes) (hc : classes.get? c = some p) :
    ∃ source, t.read p = .ok source ∧ ClassRecord.declaredName? source = some c := by
  obtain ⟨x, hx, rfl⟩ := h.exists_ofFile hc
  exact ClassRecord.declaredName?_of_ofFile hx

theorem Declares.exists_modified (h : Declares t classes) (hc : classes.get? c = some p) :
    ∃ time, t.modified p = .ok time := by
  obtain ⟨source, hsource, -⟩ := h.exists_read hc
  exact FileTree.exists_modified_of_read hsource

theorem Declares.eq_of_plain (h : Declares t classes) {d : String} (hc : classes.get? c = some p)
    (hd : classes.get? d = some q) (hplain : p.plain = q.plain) : c = d := by
  obtain ⟨source, hsource, hname⟩ := h.exists_read hc
  obtain ⟨source', hsource', hname'⟩ := h.exists_read hd
  obtain ⟨-, -, m, hnode⟩ := FileTree.read_eq_ok_iff.1 hsource
  obtain ⟨-, -, m', hnode'⟩ := FileTree.read_eq_ok_iff.1 hsource'
  rw [Path.trail_eq_of_plain hplain, hnode'] at hnode
  cases hnode
  exact Option.some.inj (hname.symm.trans hname')

def readings (m : Metadata) (t : FileTree) (classes : Table Path) : List Reading :=
  classes.entries.filterMap fun e => m.pending? t false (some e.1, e.2)

theorem addFiles_eq (m : Metadata) (t : FileTree) (classes : Table Path) :
    (m.addFiles t (classes.entries.map fun (c, p) => (some c, p)) false).2 =
      m.stageAll (readings m t classes) := by
  rw [Metadata.addFiles, List.filterMap_map]
  rfl

structure Batch (m : Metadata) (t : FileTree) (classes : Table Path) (found : List Reading) :
    Prop where
  inOrder : InOrder found
  listed : ∀ a ∈ found, classes.get? a.classname = some a.1 ∧ t.modified a.1 = .ok a.2.1 ∧
    ClassRecord.isStale (m.record? a.classname) a.2.1 = true
  complete : ∀ c p time, classes.get? c = some p → t.modified p = .ok time →
    ClassRecord.isStale (m.record? c) time = true → ∃ a ∈ found, a.classname = c

theorem pending?_eq {places : List Trail} {time : UInt64} (hdeclares : Declares t classes)
    (hapart : Apart classes places) (hthin : t.Thinned t₁ places) (hc : classes.get? c = some p)
    (htime : t.modified p = .ok time) :
    ∃ x, x.record.classname = c ∧ m.pending? t₁ false (some c, p) =
      if ClassRecord.isStale (m.record? c) time then some (p, time, x) else none := by
  have hkeys := hapart (c, p) (Table.mem_entries.2 hc)
  obtain ⟨source, hsource, -⟩ := hdeclares.exists_read hc
  obtain ⟨x, hx, hname⟩ := hdeclares.exists_ofFile hc
  have hread : t₁.read p = .ok source := hthin.read hkeys hsource
  have hmodified : t₁.modified p = .ok time := (hthin.modified hkeys hsource).trans htime
  have hx₁ : ClassRecord.ofFile t₁ p (some c) = .ok x := by
    rw [ClassRecord.ofFile, hread, ← hsource]
    exact hx
  refine ⟨x, hname, ?_⟩
  rw [Metadata.pending?_eq_read?, Metadata.read?, hmodified]
  simp only [Option.some_or, hx₁]
  cases hstale : ClassRecord.isStale (m.record? c) time <;> simp [Metadata.isStale, hstale]

theorem batch_readings {places : List Trail} (hdeclares : Declares t classes)
    (hapart : Apart classes places) (hthin : t.Thinned t₁ places) :
    Batch m t classes (readings m t₁ classes) := by
  have hreading (e : String × Path) (he : e ∈ classes.entries) (a : Reading)
      (ha : m.pending? t₁ false (some e.1, e.2) = some a) :
      a.classname = e.1 ∧ a.1 = e.2 ∧ t.modified a.1 = .ok a.2.1 ∧
        ClassRecord.isStale (m.record? e.1) a.2.1 = true := by
    have hc := Table.mem_entries.1 he
    obtain ⟨time, htime⟩ := hdeclares.exists_modified hc
    obtain ⟨x, hname, heq⟩ := pending?_eq (m := m) hdeclares hapart hthin hc htime
    rw [heq] at ha
    split_ifs at ha with hstale
    cases ha
    exact ⟨hname, rfl, htime, hstale⟩
  constructor
  · rw [InOrder, readings, List.pairwise_filterMap]
    refine classes.sorted.imp_of_mem fun {e e'} he he' hlt a ha a' ha' => ?_
    obtain ⟨hname, hfile, -⟩ := hreading e he a ha
    obtain ⟨hname', hfile', -⟩ := hreading e' he' a' ha'
    rw [hname, hname', hfile, hfile']
    refine ⟨hlt, fun hplain => String.lt_irrefl e.1 ?_⟩
    rw [hdeclares.eq_of_plain (Table.mem_entries.1 he) (Table.mem_entries.1 he') hplain] at hlt ⊢
    exact hlt
  · intro a ha
    obtain ⟨e, he, ha⟩ := List.mem_filterMap.1 ha
    obtain ⟨hname, hfile, htime, hstale⟩ := hreading e he a ha
    rw [hname]
    exact ⟨hfile ▸ Table.mem_entries.1 he, htime, hstale⟩
  · intro c p time hc htime hstale
    obtain ⟨x, hname, heq⟩ := pending?_eq (m := m) hdeclares hapart hthin hc htime
    rw [if_pos hstale] at heq
    exact ⟨(p, time, x), List.mem_filterMap.2 ⟨(c, p), Table.mem_entries.2 hc, heq⟩, hname⟩

theorem Batch.exists_record {found : List Reading} {time : UInt64} (h : Batch m t classes found)
    (hc : classes.get? c = some p) (htime : t.modified p = .ok time)
    (hunread : ∀ a ∈ found, a.classname ≠ c) :
    ∃ r, m.record? c = some r ∧ r.lastModified = time := by
  have hfresh : ClassRecord.isStale (m.record? c) time = false := by
    rw [Bool.eq_false_iff]
    intro hstale
    obtain ⟨a, ha, hname⟩ := h.complete c p time hc htime hstale
    exact hunread a ha hname
  cases hr : m.record? c with
  | none =>
    rw [hr] at hfresh
    cases hfresh
  | some r =>
    rw [hr] at hfresh
    exact ⟨r, rfl, by simpa [ClassRecord.isStale] using hfresh⟩

theorem Batch.plain_ne {found : List Reading} (h : Batch m t classes found)
    (hdeclares : Declares t classes) (hc : classes.get? c = some p)
    (hunread : ∀ a ∈ found, a.classname ≠ c) : ∀ a ∈ found, a.1.plain ≠ p.plain := by
  intro a ha hplain
  exact hunread a ha (hdeclares.eq_of_plain (h.listed a ha).1 hc hplain)

/-! ## What is reflected -/

structure Reflects (m : Metadata) (t : FileTree) (classes : Table Path) : Prop where
  classnames : m.classnames = classes.keys
  current : ∀ c p, classes.get? c = some p →
    ∃ r, m.record? c = some r ∧ t.modified p = .ok r.lastModified
  registered : ∀ c p, classes.get? c = some p → m.classOf? p = some c

def GoneRegistered (m : Metadata) (classes : Table Path) : Prop :=
  ∀ c r, m.record? c = some r → classes.get? c = none → m.classOf? ⟨r.sourceFilename⟩ = some c

/-- Metadata that tells the changes to the listed classes. -/
structure Fits (m : Metadata) (t : FileTree) (classes : Table Path) : Prop where
  gone : GoneRegistered m classes
  unmoved : ∀ c p r, classes.get? c = some p → m.record? c = some r →
    t.modified p = .ok r.lastModified → m.classOf? p = some c
  /-- No file is registered under a class that is listed before its own. -/
  untaken : ∀ c p d, classes.get? c = some p → m.classOf? p = some d → d ∈ classes.keys → ¬ d < c

theorem fits_iff : Fits m t classes ↔
    (∀ e ∈ m.records.entries, classes.get? e.1 = none →
      m.classOf? ⟨e.2.sourceFilename⟩ = some e.1) ∧
    (∀ e ∈ classes.entries, ∀ r ∈ m.record? e.1, t.modified e.2 = .ok r.lastModified →
      m.classOf? e.2 = some e.1) ∧
    ∀ e ∈ classes.entries, ∀ d ∈ classes.keys, m.classOf? e.2 = some d → ¬ d < e.1 := by
  constructor
  · intro h
    refine ⟨fun e he => h.gone e.1 e.2 (Table.mem_entries.1 he), fun e he r hr => ?_,
      fun e he d hd hfile => ?_⟩
    · exact h.unmoved e.1 e.2 r (Table.mem_entries.1 he) hr
    · exact h.untaken e.1 e.2 d (Table.mem_entries.1 he) hfile hd
  · rintro ⟨hgone, hunmoved, huntaken⟩
    refine ⟨fun c r hr => hgone (c, r) (Table.mem_entries.2 hr), fun c p r hc hr => ?_,
      fun c p d hc hfile hd => ?_⟩
    · exact hunmoved (c, p) (Table.mem_entries.2 hc) r hr
    · exact huntaken (c, p) (Table.mem_entries.2 hc) d hd hfile

instance (m : Metadata) (t : FileTree) (classes : Table Path) : Decidable (Fits m t classes) :=
  decidable_of_iff _ fits_iff.symm

namespace Dropped

variable {d : String} (h : Dropped m t (goneRecords m classes) m₁ t₁)

include h

theorem record?_listed (hgone : GoneRegistered m classes) (hc : classes.get? c = some p) :
    m₁.record? c = m.record? c := by
  rw [h.record?, if_neg]
  rintro ⟨r, hr, hfile⟩
  obtain ⟨d, hd, hnone⟩ := mem_goneRecords.1 hr
  cases (hgone d r hd hnone).symm.trans hfile
  cases hnone.symm.trans hc

theorem record?_gone (hgone : GoneRegistered m classes) (hc : classes.get? c = none) :
    m₁.record? c = none := by
  rw [h.record?]
  split_ifs with hdropped
  · rfl
  · refine Option.eq_none_iff_forall_ne_some.2 fun r hr => hdropped ?_
    exact ⟨r, mem_goneRecords.2 ⟨c, hr, hc⟩, hgone c r hr hc⟩

theorem classOf?_listed (hgone : GoneRegistered m classes) (hc : classes.get? c = some p)
    (hq : m.classOf? q = some c) : m₁.classOf? q = some c := by
  rw [h.classOf?, if_neg, hq]
  rintro ⟨r, hr, hplain⟩
  obtain ⟨d, hd, hnone⟩ := mem_goneRecords.1 hr
  have hfile := hgone d r hd hnone
  rw [Metadata.classOf?, hplain, ← Metadata.classOf?, hq] at hfile
  cases hfile
  cases hnone.symm.trans hc

end Dropped

section

variable {found : List Reading} (hm : m.Loaded t) (hdropped : Dropped m t (goneRecords m classes) m₁ t₁)
  (hbatch : Batch m₁ t classes found) (hdeclares : Declares t classes)

include hm hdropped hbatch

theorem Reflects.goneRegistered (h : Reflects (m₁.stageAll found) t classes) :
    GoneRegistered m classes := by
  intro c r hr hc
  by_contra hne
  have hother {q : Path} (hq : m.classOf? q = some c) : False := by
    refine hne ?_
    rw [Metadata.classOf?, hm.plain_eq hq hr]
    exact hq
  have hr₁ : m₁.record? c = some r := by
    rw [hdropped.record?, if_neg, hr]
    rintro ⟨s, -, hfile⟩
    exact hother hfile
  have hr₂ : (m₁.stageAll found).record? c = some r := by
    rw [Metadata.record?_stageAll_of_unread hbatch.inOrder, hr₁]
    intro a ha
    refine ⟨?_, fun ha' => hother (hdropped.classOf?_of_some ha')⟩
    rintro rfl
    cases hc.symm.trans (hbatch.listed a ha).1
  have hkey : c ∈ classes.keys := h.classnames ▸ Metadata.mem_classnames.2 ⟨r, hr₂⟩
  obtain ⟨p, hp⟩ := Table.mem_keys.1 hkey
  cases hc.symm.trans hp

include hdeclares

theorem Fits.reflects (h : Fits m t classes) : Reflects (m₁.stageAll found) t classes := by
  have hlisted (c : String) (p : Path) (hc : classes.get? c = some p) :
      (∃ r, (m₁.stageAll found).record? c = some r ∧ t.modified p = .ok r.lastModified) ∧
        (m₁.stageAll found).classOf? p = some c := by
    by_cases hread : ∃ a ∈ found, a.classname = c
    · obtain ⟨a, ha, rfl⟩ := hread
      obtain ⟨hfile, htime, -⟩ := hbatch.listed a ha
      cases hc.symm.trans hfile
      refine ⟨⟨a.staged, ?_, htime⟩, Metadata.classOf?_stageAll hbatch.inOrder ha⟩
      refine Metadata.record?_stageAll hbatch.inOrder ha fun b hb hlt hb' => ?_
      exact h.untaken b.classname b.1 a.classname (hbatch.listed b hb).1
        (hdropped.classOf?_of_some hb') (Table.mem_keys.2 ⟨_, hc⟩) hlt
    · simp only [not_exists, not_and] at hread
      obtain ⟨time, htime⟩ := hdeclares.exists_modified hc
      obtain ⟨r, hr₁, rfl⟩ := hbatch.exists_record hc htime hread
      have hr := hdropped.record?_of_some hr₁
      have hfile := h.unmoved c p r hc hr htime
      have hplain := hbatch.plain_ne hdeclares hc hread
      constructor
      · refine ⟨r, ?_, htime⟩
        rw [Metadata.record?_stageAll_of_unread hbatch.inOrder, hr₁]
        intro a ha
        refine ⟨hread a ha, fun ha' => hplain a ha ?_⟩
        -- both files would be the source of the record
        rw [← hm.plain_eq (hdropped.classOf?_of_some ha') hr, hm.plain_eq hfile hr]
      · rw [Metadata.classOf?_stageAll_of_unread hplain]
        exact hdropped.classOf?_listed h.gone hc hfile
  refine ⟨?_, fun c p hc => (hlisted c p hc).1, fun c p hc => (hlisted c p hc).2⟩
  refine Table.keys_eq_of_mem_iff fun c => ?_
  rw [Table.mem_keys, Table.mem_keys]
  constructor
  · rintro ⟨r, hr⟩
    by_contra hc
    have hnone : classes.get? c = none :=
      Option.eq_none_iff_forall_ne_some.2 fun p hp => hc ⟨p, hp⟩
    obtain ⟨a, ha, rfl⟩ := List.mem_map.1 (Metadata.read_of_contains_stageAll
      (hdropped.record?_gone h.gone hnone) (Table.contains_iff.2 ⟨r, hr⟩))
    exact hc ⟨a.1, (hbatch.listed a ha).1⟩
  · rintro ⟨p, hc⟩
    obtain ⟨r, hr, -⟩ := (hlisted c p hc).1
    exact ⟨r, hr⟩

theorem Reflects.fits (h : Reflects (m₁.stageAll found) t classes) : Fits m t classes := by
  have hgone := h.goneRegistered hm hdropped hbatch
  have hunmoved (c : String) (p : Path) (r : ClassRecord) (hc : classes.get? c = some p)
      (hr : m.record? c = some r) (htime : t.modified p = .ok r.lastModified) :
      m.classOf? p = some c := by
    have hunread : ∀ a ∈ found, a.classname ≠ c := by
      rintro a ha rfl
      obtain ⟨hfile, htime', hstale⟩ := hbatch.listed a ha
      cases hc.symm.trans hfile
      rw [hdropped.record?_listed hgone hc, hr] at hstale
      have heq : a.2.1 = r.lastModified := Except.ok.inj (htime'.symm.trans htime)
      simp [ClassRecord.isStale, heq] at hstale
    have hfile := h.registered c p hc
    rw [Metadata.classOf?_stageAll_of_unread (hbatch.plain_ne hdeclares hc hunread)] at hfile
    exact hdropped.classOf?_of_some hfile
  refine ⟨hgone, hunmoved, fun c p d hc hp hd hlt => ?_⟩
  obtain ⟨q, hq⟩ := Table.mem_keys.1 hd
  by_cases hread : ∃ a ∈ found, a.classname = c
  · -- the file is read for the later class, so the earlier one has lost its record
    obtain ⟨a, ha, rfl⟩ := hread
    cases hc.symm.trans (hbatch.listed a ha).1
    have hnone := Metadata.record?_stageAll_eq_none hbatch.inOrder ha hlt
      (hdropped.classOf?_listed hgone hq hp)
    obtain ⟨r, hr, -⟩ := h.current d q hq
    cases hnone.symm.trans hr
  · simp only [not_exists, not_and] at hread
    obtain ⟨time, htime⟩ := hdeclares.exists_modified hc
    obtain ⟨r, hr, rfl⟩ := hbatch.exists_record hc htime hread
    cases hp.symm.trans (hunmoved c p r hc (hdropped.record?_of_some hr) htime)
    exact String.lt_irrefl c hlt

end

/-! ## The whole step -/

theorem of_run_check {α ε : Type} {result : Except ε α} {wrap : ε → RunError} {a : α}
    (h : (check result wrap).run t = (.ok a, t')) : result = .ok a ∧ t' = t := by
  cases result with
  | error e => cases h
  | ok b =>
    cases h
    exact ⟨rfl, rfl⟩

theorem of_run_syncMetadata (h : (syncMetadata m classes).run t = (.ok m', t')) :
    ∃ done m₂ t₂, ((dropStale m t classes).1.stageAll
        (readings (dropStale m t classes).1 (dropStale m t classes).2 classes)).reconcile
          (dropStale m t classes).2 = (.ok done, m₂, t₂) ∧
      m' = m₂.takeWarnings.2 ∧ m'.save.run t₂ = (.ok (), t') := by
  have hget : (get : FileM RunError FileTree).run t = (.ok t, t) := rfl
  rw [syncMetadata, run_bind_of_ok hget] at h
  rw [← addFiles_eq]
  rcases hdrop : dropStale m t classes with ⟨m₁, t₁⟩
  rw [hdrop] at h
  dsimp only at h ⊢
  rcases hreconcile : (m₁.addFiles t₁ (classes.entries.map fun (c, p) => (some c, p)) false).2.reconcile
    t₁ with ⟨result, m₂, t₂⟩
  rw [hreconcile] at h
  dsimp only at h
  have hset : (set t₂ : FileM RunError PUnit).run t = (.ok ⟨⟩, t₂) := rfl
  rw [run_bind_of_ok hset] at h
  obtain ⟨done, t₃, hcheck, hrest⟩ := exists_of_run_bind_ok h
  obtain ⟨rfl, rfl⟩ := of_run_check hcheck
  rcases hsave : m₂.takeWarnings.2.save.run t₃ with ⟨saved, t₄⟩
  rw [hsave] at hrest
  have hset' : (set t₄ : FileM RunError PUnit).run t₃ = (.ok ⟨⟩, t₄) := rfl
  dsimp only at hrest
  rw [run_bind_of_ok hset'] at hrest
  obtain ⟨_, t₅, hcheck', hend⟩ := exists_of_run_bind_ok hrest
  obtain ⟨rfl, rfl⟩ := of_run_check hcheck'
  cases hend
  exact ⟨done, m₂, t₃, hreconcile, rfl, hsave⟩

theorem Reflects.of_lastModified_eq (h : Reflects m t classes) (hfiles : m'.files = m.files)
    (htimes : ∀ c, (m'.record? c).map ClassRecord.lastModified =
      (m.record? c).map ClassRecord.lastModified) : Reflects m' t classes := by
  have hknown (c : String) : c ∈ m'.records.keys ↔ c ∈ m.records.keys := by
    have hsome := congrArg Option.isSome (htimes c)
    rw [Option.isSome_map, Option.isSome_map] at hsome
    rw [Table.mem_keys, Table.mem_keys, ← Option.isSome_iff_exists, ← Option.isSome_iff_exists]
    exact iff_of_eq (congrArg (· = true) hsome)
  refine ⟨(Table.keys_eq_of_mem_iff hknown).trans h.classnames, fun c p hc => ?_, fun c p hc => ?_⟩
  · obtain ⟨r, hr, htime⟩ := h.current c p hc
    have hmap := htimes c
    rw [hr, Option.map_some] at hmap
    obtain ⟨r', hr', hsame⟩ := Option.map_eq_some_iff.1 hmap
    exact ⟨r', hr', by rw [htime, hsame]⟩
  · rw [Metadata.classOf?, hfiles]
    exact h.registered c p hc

structure InLine (m : Metadata) (before after : FileTree) (classes : Table Path) : Prop
    extends Reflects m before classes where
  removable : ∀ c p, classes.get? c = some p →
    ∃ m' t', m.removeFile p after = (.ok (some c), m', t') ∧ c ∉ m'.classnames

theorem Reflects.inLine (h : Reflects m t classes) (hm : m.Backed t') : InLine m t t' classes := by
  refine ⟨h, fun c p hc => ?_⟩
  obtain ⟨m₁, t₁, hrun, -⟩ := hm.removeFile (FileTree.Thinned.refl t') p
  have hremoval := Metadata.removal_removeFile m p t'
  rw [hrun, h.registered c p hc] at hremoval
  rw [h.registered c p hc] at hrun
  exact ⟨m₁, t₁, hrun, fun hc => (hremoval.mem_classnames.1 hc).2 rfl⟩

theorem reflects_syncMetadata_iff (hm : m.Loaded t) (hdeclares : Declares t classes)
    (hapart : Apart classes m.places)
    (hsync : (syncMetadata m classes).run t = (.ok m', t')) :
    Reflects m' t classes ↔ Fits m t classes := by
  obtain ⟨done, m₂, t₂, hreconcile, rfl, -⟩ := of_run_syncMetadata hsync
  have hdropped := dropped_dropStale hm.backed classes
  generalize dropStale m t classes = dropped at hreconcile hdropped
  obtain ⟨m₁, t₁⟩ := dropped
  have hbatch : Batch m₁ t classes (readings m₁ t₁ classes) :=
    batch_readings hdeclares hapart hdropped.thinned
  -- reconciling derives the rest of the records and keeps what is reflected
  have hrenewed := Metadata.renewed_reconcile (m₁.stageAll (readings m₁ t₁ classes)) t₁
  have htimes := Metadata.lastModified_reconcile (m₁.stageAll (readings m₁ t₁ classes)) t₁
  rw [hreconcile] at hrenewed htimes
  constructor
  · intro h
    exact (h.of_lastModified_eq hrenewed.files.symm fun c => (htimes c).symm).fits hm hdropped hbatch
      hdeclares
  · intro h
    exact (h.reflects hm hdropped hbatch hdeclares).of_lastModified_eq hrenewed.files htimes

/-- Loaded metadata is brought in line with classes that their files declare exactly if it tells the
changes to them. -/
theorem inLine_syncMetadata_iff {root : Path} {checks : Table String}
    (hload : Metadata.load { rootDir := root } t = .ok m) (hdeclares : Declares t classes)
    (hapart : Apart classes m.places)
    (hsync : (syncMetadata (m.addEnvironmentChecks checks) classes).run t = (.ok m', t')) :
    InLine m' t t' classes ↔ Fits m t classes := by
  have hm := (Metadata.loaded_of_load hload).addEnvironmentChecks checks
  have hreflects := reflects_syncMetadata_iff hm hdeclares hapart hsync
  constructor
  · intro h
    have hfits := hreflects.1 h.toReflects
    exact ⟨hfits.gone, hfits.unmoved, hfits.untaken⟩
  · intro h
    obtain ⟨_, _, _, _, _, hsave⟩ := of_run_syncMetadata hsync
    exact (hreflects.2 ⟨h.gone, h.unmoved, h.untaken⟩).inLine (Metadata.backed_of_run_save hsave)

/-! ## A file in the place of another -/

def replaced (classname : String) : FileTree :=
  { nodes := Table.ofList [
      ("/B.js", .file ("qx.Class.define(\"" ++ classname ++ "\",\x7b\x7d);") 1),
      ("/m", .directory),
      ("/m/a", .directory),
      ("/m/a/A.json", .file ("\x7b\"version\":0.4,\"classname\":\"a.A\",\"type\":\"class\"," ++
        "\"sourceFilename\":\"/A.js\",\"lastModified\":1\x7d") 1),
      ("/m/db.json", .file "\x7b\"classnames\":[\"a.A\"]\x7d" 1)] }

def replacing (classname : String) : Table Path := Table.ofList [(classname, ⟨"/B.js"⟩)]

/-- A class has gone, and its record goes too. -/
theorem inLine_syncMetadata_replaced :
    ∃ m m' t', Metadata.load { rootDir := ⟨"/m"⟩ } (replaced "b.B") = .ok m ∧
      m.classnames = ["a.A"] ∧
      (syncMetadata (m.addEnvironmentChecks .empty) (replacing "b.B")).run (replaced "b.B") =
        (.ok m', t') ∧
      InLine m' (replaced "b.B") t' (replacing "b.B") := by
  have h : ((Metadata.load { rootDir := ⟨"/m"⟩ } (replaced "b.B")).toOption.any fun m =>
      decide (m.classnames = ["a.A"] ∧ Declares (replaced "b.B") (replacing "b.B") ∧
        Apart (replacing "b.B") m.places ∧ Fits m (replaced "b.B") (replacing "b.B") ∧
        ((syncMetadata (m.addEnvironmentChecks .empty) (replacing "b.B")).run
          (replaced "b.B")).1.isOk = true)) = true := by
    decide +kernel
  rcases hload : Metadata.load { rootDir := ⟨"/m"⟩ } (replaced "b.B") with e | m
  · rw [hload] at h
    cases h
  · rw [hload] at h
    simp only [Except.toOption, Option.any_some, decide_eq_true_eq] at h
    obtain ⟨hnames, hdeclares, hapart, hfits, hok⟩ := h
    rcases hsync : (syncMetadata (m.addEnvironmentChecks .empty) (replacing "b.B")).run
      (replaced "b.B") with ⟨e | m', t'⟩
    · rw [hsync] at hok
      cases hok
    · exact ⟨m, m', t', rfl, hnames, hsync,
        (inLine_syncMetadata_iff hload hdeclares hapart hsync).2 hfits⟩

/-- A file that has moved with its time is not known by its new place, and removing it there drops
nothing. -/
theorem inLine_syncMetadata_moved :
    ∃ m m' t', Metadata.load { rootDir := ⟨"/m"⟩ } (replaced "a.A") = .ok m ∧
      Declares (replaced "a.A") (replacing "a.A") ∧ Apart (replacing "a.A") m.places ∧
      (syncMetadata m (replacing "a.A")).run (replaced "a.A") = (.ok m', t') ∧
      m'.classnames = ["a.A"] ∧ m'.classOf? ⟨"/B.js"⟩ = none ∧
      (m'.removeFile ⟨"/B.js"⟩ t').1 = .ok none := by
  have h : ((Metadata.load { rootDir := ⟨"/m"⟩ } (replaced "a.A")).toOption.any fun m =>
      decide (Declares (replaced "a.A") (replacing "a.A") ∧ Apart (replacing "a.A") m.places) &&
        ((syncMetadata m (replacing "a.A")).run (replaced "a.A")).1.toOption.any fun m' =>
          decide (m'.classnames = ["a.A"] ∧ m'.classOf? ⟨"/B.js"⟩ = none)) = true := by
    decide +kernel
  rcases hload : Metadata.load { rootDir := ⟨"/m"⟩ } (replaced "a.A") with e | m
  · rw [hload] at h
    cases h
  · rw [hload] at h
    simp only [Except.toOption, Option.any_some, Bool.and_eq_true, decide_eq_true_eq] at h
    obtain ⟨⟨hdeclares, hapart⟩, hsynced⟩ := h
    rcases hsync : (syncMetadata m (replacing "a.A")).run (replaced "a.A") with ⟨e | m', t'⟩
    · rw [hsync] at hsynced
      cases hsynced
    · rw [hsync] at hsynced
      simp only [Option.any_some, decide_eq_true_eq] at hsynced
      obtain ⟨hnames, hfile⟩ := hsynced
      refine ⟨m, m', t', rfl, hdeclares, hapart, hsync, hnames, hfile, ?_⟩
      rw [Metadata.removeFile, hfile]

end Run

end ClassForge
