import ClassForge.Proofs.Files.Names
import ClassForge.Proofs.Metadata.Packages
import ClassForge.Proofs.Metadata.Snapshots
import ClassForge.Proofs.Metadata.Stored

/-!
# Saving and loading metadata

Metadata that was filled from sources and saved is loaded as it was, with one exception. The record of
a class `db` is written where the index is written after it, so such a class is lost.
-/

namespace ClassForge

open Json

/-! ## Stored records -/

namespace ClassRecord

variable {t : FileTree} {file : Path}

theorem load?_of_read {r : ClassRecord} (hversion : r.version = formVersion)
    (h : t.read file = .ok (encode r).pretty) : load? t file = .ok (some r) := by
  have hfinite : r.version.isFinite = true := by rw [hversion, isFinite_formVersion]
  have hparse : parse? (encode r).pretty = some (encode r) := by
    rw [parse?_pretty, reread_encode hversion (by decide)]
  have hfound : ((encode r).canonical.field? "version").bind
      (fun v => (decode v : Except DecodeError Binary64).toOption) = some formVersion := by
    rw [field?_version, Option.bind_some, decode_encode_version hfinite, hversion]
    rfl
  unfold load?
  simp only [h, hparse, hfound, if_true, decode_canonical_finite hfinite]

end ClassRecord

namespace Metadata

variable {m : Metadata} {t t' : FileTree} {c : String}

instance : ReadBack Index 2 := {}

theorem load?_of_read_index {file : Path} {i : Index} (h : t.read file = .ok (encode i).pretty) :
    ClassRecord.load? t file = .ok none := by
  have hfound : (encode i).canonical.field? "version" = none := by
    change (Json.object _).canonical.field? "version" = none
    rw [field?_canonical] <;> simp
  unfold ClassRecord.load?
  simp only [h, parse?_pretty_encode (show 2 ≤ 127 by decide), hfound, Option.bind_none,
    reduceCtorEq, if_false]

/-! ## Sources of records -/

def Sourced (m : Metadata) : Prop :=
  ∀ c r, m.record? c = some r → m.classOf? ⟨r.sourceFilename⟩ = some c

theorem kept_sourced : KeptByFilling Sourced where
  stage := by
    intro m file time x _ hm c r hr
    rw [record?_stage] at hr
    rw [classOf?_stage]
    split at hr
    · next hc =>
      cases hr
      exact (if_pos rfl).trans (congrArg some hc.symm)
    · split at hr
      · cases hr
      · next hfile =>
        have hsource := hm c r hr
        rw [if_neg, hsource]
        intro hplain
        rw [classOf?, hplain] at hsource
        exact hfile hsource
  drop := by
    intro m file o m' h hm c r hr
    rw [h.record?] at hr
    split at hr
    · cases hr
    · next hne =>
      -- the file is another one, or this would be the class that is dropped
      have hsource := hm c r hr
      rw [h.classOf?, if_neg, hsource]
      intro hplain
      rw [classOf?, hplain, ← classOf?, h.classOf?_eq] at hsource
      exact hne (congrArg Except.ok hsource)
  renew := by
    intro m m' h hm c r' hr'
    obtain ⟨r, hr, -, hsame⟩ := h.record? hr'
    rw [classOf?, h.files, hsame]
    exact hm c r hr

/-! ## What saving writes -/

def index (m : Metadata) : Index :=
  { classnames := m.classnames, environmentChecks := m.environmentChecks }

structure Saved (m : Metadata) (t : FileTree) : Prop where
  record : ∀ c r, m.record? c = some r → c ≠ "db" →
    t.read (ClassRecord.storePath m.rootDir c) = .ok (encode r).pretty
  hidden : ∀ r, m.record? "db" = some r →
    t.read (ClassRecord.storePath m.rootDir "db") = .ok (encode m.index).pretty
  index : t.read m.indexPath = .ok (encode m.index).pretty

theorem trail_storePath_eq_index (hc : Path.PlainName c) :
    (ClassRecord.storePath m.rootDir c).trail = m.indexPath.trail ↔ c = "db" := by
  have hname : "db.json" = "db" ++ "." ++ "json" := by decide
  rw [ClassRecord.storePath, indexPath, hname]
  exact Path.trail_ofClass_eq_child m.rootDir hc (by decide) (by decide) (by decide) (by decide)
    (by decide)

theorem saved_of_run_save (hnames : ∀ c ∈ m.classnames, Path.PlainName c)
    (h : m.save.run t = (.ok (), t')) : m.Saved t' := by
  obtain ⟨_, t₁, hrecords, hindex⟩ := exists_of_run_bind_ok h
  have hplain (c : String) (r : ClassRecord) (hr : m.record? c = some r) : Path.PlainName c :=
    hnames c (mem_classnames.2 ⟨r, hr⟩)
  have hnonempty {c : String} (hc : Path.PlainName c) :
      (ClassRecord.storePath m.rootDir c).trail ≠ [] :=
    Path.trail_ofClass_ne_nil m.rootDir hc (by decide) (by decide)
  have hapart : m.records.entries.Pairwise fun a b =>
      FileTree.keyOf (ClassRecord.storePath m.rootDir a.1).trail ≠
        FileTree.keyOf (ClassRecord.storePath m.rootDir b.1).trail := by
    refine m.records.sorted.imp_of_mem fun {a b} ha hb hlt hkey => ?_
    have ha := hplain a.1 a.2 (Table.mem_entries.1 ha)
    have hb := hplain b.1 b.2 (Table.mem_entries.1 hb)
    have htrail := Path.trail_eq_of_key (hnonempty ha) (hnonempty hb) hkey
    have heq := Path.trail_ofClass_inj ha hb (by decide) (by decide) htrail
    exact String.lt_irrefl _ (heq ▸ hlt)
  obtain ⟨hreads, -⟩ := of_run_forM_writeIfChanged hapart hrecords
  obtain ⟨hread, hgrown⟩ := of_run_writeIfChanged hindex
  have hindexTrail : m.indexPath.trail ≠ [] := by
    have hdb : Path.PlainName "db" := by decide
    rw [← (trail_storePath_eq_index hdb).2 rfl]
    exact hnonempty hdb
  refine ⟨fun c r hr hc => ?_, fun r hr => ?_, hread⟩
  · refine hgrown.read (fun place hplace => ?_) (hreads (c, r) (Table.mem_entries.2 hr))
    rw [List.mem_singleton.1 hplace]
    intro hkey
    have htrail := Path.trail_eq_of_key (hnonempty (hplain c r hr)) hindexTrail hkey
    exact hc ((trail_storePath_eq_index (hplain c r hr)).1 htrail)
  · exact hgrown.read_same (hreads ("db", r) (Table.mem_entries.2 hr)) hread
      ((trail_storePath_eq_index (hplain "db" r hr)).2 rfl)

theorem Saved.stored? (h : m.Saved t) (hm : m.Versioned) (hc : c ∈ m.classnames) :
    stored? t m.rootDir c = if c = "db" then none else m.record? c := by
  obtain ⟨r, hr⟩ := mem_classnames.1 hc
  unfold Metadata.stored?
  split_ifs with hdb
  · subst hdb
    simp only [load?_of_read_index (h.hidden r hr)]
  · simp only [ClassRecord.load?_of_read (hm c r hr) (h.record c r hr hdb), hr]

/-! ## What loading takes -/

def reloaded (m : Metadata) (t : FileTree) : Metadata :=
  m.classnames.foldl (restore t)
    { rootDir := m.rootDir, environmentChecks := m.environmentChecks }

theorem load_of_saved (h : m.Saved t) :
    load { rootDir := m.rootDir } t = .ok (m.reloaded t) := by
  have hindex : t.read (indexPath { rootDir := m.rootDir }) = .ok (encode m.index).pretty := h.index
  have hdecode : (parse? (encode m.index).pretty).bind
      (fun j => (decode j : Except DecodeError Index).toOption) = some m.index := by
    rw [parse?_pretty_encode (by decide), Option.bind_some, decode_encode]
    rfl
  have hchecks : addEnvironmentChecks { rootDir := m.rootDir } m.index.environmentChecks =
      { rootDir := m.rootDir, environmentChecks := m.environmentChecks } := by
    have hunion : Table.empty.union m.environmentChecks = m.environmentChecks :=
      Table.ofList_entries m.environmentChecks
    simp only [addEnvironmentChecks, index, hunion]
  unfold load
  simp only [hindex, hdecode, hchecks]
  rfl

theorem restore_frame (t : FileTree) (m : Metadata) (c : String) :
    (restore t m c).rootDir = m.rootDir ∧
      (restore t m c).environmentChecks = m.environmentChecks := by
  rcases restore_cases t m c with ⟨-, h⟩ | ⟨r, -, h⟩ <;> rw [h] <;> exact ⟨rfl, rfl⟩

theorem record?_restore (t : FileTree) (m : Metadata) (c d : String) :
    (restore t m c).record? d =
      if d = c then (stored? t m.rootDir c).or (m.record? d) else m.record? d := by
  rcases restore_cases t m c with ⟨hnone, h⟩ | ⟨r, hsome, h⟩
  · rw [h, hnone]
    simp
  · rw [h, hsome, record?, Table.get?_insert]
    rfl

theorem foldl_restore_frame (t : FileTree) (l : List String) (m : Metadata) :
    (l.foldl (restore t) m).rootDir = m.rootDir ∧
      (l.foldl (restore t) m).environmentChecks = m.environmentChecks := by
  induction l generalizing m with
  | nil => exact ⟨rfl, rfl⟩
  | cons c rest ih =>
    rw [List.foldl_cons]
    obtain ⟨hroot, hchecks⟩ := ih (restore t m c)
    obtain ⟨hroot', hchecks'⟩ := restore_frame t m c
    exact ⟨hroot.trans hroot', hchecks.trans hchecks'⟩

theorem record?_foldl_restore (t : FileTree) (l : List String) (m : Metadata) (d : String) :
    (l.foldl (restore t) m).record? d =
      if d ∈ l then (stored? t m.rootDir d).or (m.record? d) else m.record? d := by
  induction l generalizing m with
  | nil => simp
  | cons c rest ih =>
    rw [List.foldl_cons, ih, record?_restore, (restore_frame t m c).1]
    by_cases hd : d = c
    · subst hd
      cases stored? t m.rootDir d <;> simp
    · simp [hd]

theorem Sourced.restore (hm : m.Sourced)
    (hfree : ∀ r, stored? t m.rootDir c = some r → ∀ d r', m.record? d = some r' →
      (Path.mk r'.sourceFilename).plain = (Path.mk r.sourceFilename).plain → d = c) :
    (restore t m c).Sourced := by
  rcases restore_cases t m c with ⟨-, h⟩ | ⟨r, hstored, h⟩
  · rwa [h]
  · rw [h]
    intro d r' hr'
    simp only [record?, Table.get?_insert] at hr'
    simp only [classOf?, Table.get?_insert]
    split at hr'
    · next hd =>
      cases hr'
      rw [if_pos rfl, hd]
    · next hd =>
      rw [if_neg fun hplain => hd (hfree r hstored d r' hr' hplain)]
      exact hm d r' hr'

structure Part (whole m : Metadata) : Prop where
  rootDir : m.rootDir = whole.rootDir
  records : ∀ d r, m.record? d = some r → whole.record? d = some r
  sourced : m.Sourced

theorem Part.foldl_restore {whole : Metadata} (hwhole : whole.Sourced) {l : List String}
    (hstored : ∀ c ∈ l, ∀ r, stored? t whole.rootDir c = some r → whole.record? c = some r)
    (hm : whole.Part m) : whole.Part (l.foldl (Metadata.restore t) m) := by
  induction l generalizing m with
  | nil => exact hm
  | cons c rest ih =>
    obtain ⟨hfirst, hrest⟩ := List.forall_mem_cons.1 hstored
    rw [List.foldl_cons]
    refine ih hrest ⟨?_, fun d r hr => ?_, hm.sourced.restore fun r hr d r' hr' hplain => ?_⟩
    · rw [(restore_frame t m c).1, hm.rootDir]
    · rw [record?_restore, hm.rootDir] at hr
      split at hr
      · next hd =>
        rw [Option.or_eq_some_iff] at hr
        rcases hr with hr | ⟨-, hr⟩
        · rw [hd]
          exact hfirst r hr
        · exact hm.records d r hr
      · exact hm.records d r hr
    · -- both records come from one file, which is registered under one class
      rw [hm.rootDir] at hr
      have hd := hwhole d r' (hm.records d r' hr')
      have hc := hwhole c r (hfirst r hr)
      rw [classOf?, hplain, ← classOf?, hc] at hd
      exact (Option.some.inj hd).symm

/-! ## Loading what was saved -/

theorem record?_reloaded (h : m.Saved t) (hm : m.Versioned) (c : String) :
    (m.reloaded t).record? c = if c = "db" then none else m.record? c := by
  have hbefore : record? { rootDir := m.rootDir, environmentChecks := m.environmentChecks } c =
      none := rfl
  rw [reloaded, record?_foldl_restore, hbefore]
  by_cases hc : c ∈ m.classnames
  · rw [if_pos hc, Option.or_none]
    exact h.stored? hm hc
  · have hnone : m.record? c = none := by
      refine Option.eq_none_iff_forall_ne_some.2 fun r hr => hc ?_
      exact mem_classnames.2 ⟨r, hr⟩
    rw [if_neg hc, hnone, ite_self]

theorem classnames_reloaded (h : m.Saved t) (hm : m.Versioned) :
    (m.reloaded t).classnames = m.classnames.filter (· ≠ "db") := by
  have hrecords : (m.reloaded t).records = m.records.erase "db" :=
    Table.ext_get? fun c => (record?_reloaded h hm c).trans (Table.get?_erase m.records c "db").symm
  rw [classnames, hrecords, classnames, Table.keys, Table.keys, List.filter_map]
  rfl

theorem not_liesIn_db (p : String) : ¬ LiesIn "db" p := by
  rintro ⟨rest, h⟩
  have hdot : '.' ∈ "db".toList := by
    rw [h]
    simp
  exact absurd hdot (by decide)

theorem isPackage_reloaded (h : m.Saved t) (hm : m.Versioned) (hexact : m.PackagesExact)
    (p : String) : (m.reloaded t).isPackage p = m.isPackage p := by
  have hexact' : (m.reloaded t).PackagesExact :=
    kept_packagesExact.foldl_restore t m.classnames
      ((packagesExact_empty m.rootDir).of_eq (fun _ => .rfl) rfl)
  rw [Bool.eq_iff_iff, hexact' p, hexact p, classnames_reloaded h hm]
  constructor
  · rintro ⟨c, hc, hlies⟩
    exact ⟨c, List.mem_of_mem_filter hc, hlies⟩
  · rintro ⟨c, hc, hlies⟩
    -- the class that is lost lies in no package
    refine ⟨c, List.mem_filter.2 ⟨hc, ?_⟩, hlies⟩
    simp only [ne_eq, decide_eq_true_eq]
    rintro rfl
    exact not_liesIn_db p hlies

theorem sourced_reloaded (h : m.Saved t) (hm : m.Versioned) (hsourced : m.Sourced) :
    (m.reloaded t).Sourced := by
  have hstored : ∀ c ∈ m.classnames, ∀ r, Metadata.stored? t m.rootDir c = some r →
      m.record? c = some r := by
    intro c hc r hr
    rw [h.stored? hm hc] at hr
    split at hr
    · cases hr
    · exact hr
  have hbefore : m.Part { rootDir := m.rootDir, environmentChecks := m.environmentChecks } :=
    ⟨rfl, by rintro d r ⟨⟩, by rintro d r ⟨⟩⟩
  exact (hbefore.foldl_restore hsourced hstored).sourced

/-- Metadata that was filled from sources with plain class names, and saved, is loaded as it was, only
without the class `db`: the file of its record is that of the index. -/
theorem load_of_run_save (hm : m.Filled) (hnames : ∀ c ∈ m.classnames, Path.PlainName c)
    (hsave : m.save.run t = (.ok (), t')) :
    ∃ m', load { rootDir := m.rootDir } t' = .ok m' ∧
      m'.classnames = m.classnames.filter (· ≠ "db") ∧
      (∀ c, m'.record? c = if c = "db" then none else m.record? c) ∧
      m'.environmentChecks = m.environmentChecks ∧
      (∀ p, m'.isPackage p = m.isPackage p) ∧
      ∀ c r, m'.record? c = some r → m'.classOf? ⟨r.sourceFilename⟩ = some c := by
  have hsaved := saved_of_run_save hnames hsave
  have hversioned : m.Versioned :=
    kept_versioned.toKeptByFilling.filled (by rintro root c r ⟨⟩) hm
  have hsourced : m.Sourced := kept_sourced.filled (by rintro root c r ⟨⟩) hm
  have hexact : m.PackagesExact :=
    kept_packagesExact.toKeptByFilling.filled packagesExact_empty hm
  exact ⟨m.reloaded t', load_of_saved hsaved, classnames_reloaded hsaved hversioned,
    record?_reloaded hsaved hversioned, (foldl_restore_frame t' _ _).2,
    isPackage_reloaded hsaved hversioned hexact, sourced_reloaded hsaved hversioned hsourced⟩

def nestedClasses : Metadata :=
  operated ⟨"/m"⟩ [.edit (.addFiles nestedFiles [(none, ⟨"/A.js"⟩), (none, ⟨"/B.js"⟩)] false)]

theorem filled_nestedClasses : nestedClasses.Filled := by
  rw [nestedClasses, operated, List.foldl_cons, List.foldl_nil]
  exact .run (.empty _) trivial

theorem load_of_run_save_nested :
    ∃ t' m', nestedClasses.save.run nestedFiles = (.ok (), t') ∧
      load { rootDir := nestedClasses.rootDir } t' = .ok m' ∧
      m'.classnames = ["a.A", "a.b.B"] := by
  obtain ⟨hnames, hsaved, hkept⟩ : (∀ c ∈ nestedClasses.classnames, Path.PlainName c) ∧
      (nestedClasses.save.run nestedFiles).1 = .ok () ∧
      nestedClasses.classnames.filter (· ≠ "db") = ["a.A", "a.b.B"] := by
    decide +kernel
  rcases hrun : nestedClasses.save.run nestedFiles with ⟨result, t'⟩
  rw [hrun] at hsaved
  obtain rfl : result = .ok () := hsaved
  obtain ⟨m', hload, hclassnames, -⟩ := load_of_run_save filled_nestedClasses hnames hrun
  exact ⟨t', m', rfl, hload, hclassnames.trans hkept⟩

/-- A file defines a class whose record is stored where the index is. -/
def indexFiles : FileTree :=
  { nodes := Table.ofList [("/D.js", .file "qx.Class.define(\"db\",\x7b\x7d);" 1)] }

def indexClass : Metadata :=
  operated ⟨"/"⟩ [.edit (.addFile indexFiles ⟨"/D.js"⟩ false)]

theorem load_of_run_save_hidden :
    (indexClass.save.run indexFiles).1 = .ok () ∧ indexClass.classnames = ["db"] ∧
      (load { rootDir := ⟨"/"⟩ } (indexClass.save.run indexFiles).2).toOption.map classnames =
        some [] := by
  decide +kernel

end Metadata

end ClassForge
