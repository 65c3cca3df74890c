import ClassForge.Proofs.Metadata.Operations

/-!
# Packages

A name is a package exactly if some class lies in it. Classes that come mark their packages one by
one, and when a class goes the packages of all others are counted again; no name ever leaves the
table of packages.
-/

namespace ClassForge

namespace Text

theorem mem_dotSplits {l a b : List Char} : (a, b) ∈ dotSplits l ↔ l = a ++ '.' :: b := by
  induction l generalizing a with
  | nil => simp [dotSplits]
  | cons c rest ih =>
    have hmore : (a, b) ∈ (dotSplits rest).map (fun split => (c :: split.1, split.2)) ↔
        ∃ a', a = c :: a' ∧ rest = a' ++ '.' :: b := by
      simp only [List.mem_map, Prod.mk.injEq, Prod.exists]
      constructor
      · rintro ⟨a', b', hmem, rfl, rfl⟩
        exact ⟨a', rfl, ih.1 hmem⟩
      · rintro ⟨a', rfl, hrest⟩
        exact ⟨a', b, ih.2 hrest, rfl, rfl⟩
    rw [dotSplits]
    split
    · next hdot =>
      rw [List.mem_cons, hmore, hdot]
      cases a with
      | nil => simp [eq_comm]
      | cons x a => simp [eq_comm]
    · next hdot =>
      rw [hmore]
      cases a with
      | nil => simp [hdot]
      | cons x a => simp [eq_comm]

theorem mem_splitsByLength {name a b : String} :
    (a, b) ∈ splitsByLength name ↔ name = a ++ "." ++ b := by
  rw [splitsByLength, List.mem_reverse, List.mem_map]
  constructor
  · rintro ⟨⟨l, r⟩, hmem, heq⟩
    cases heq
    rw [← String.toList_inj, mem_dotSplits.1 hmem]
    simp
  · rintro rfl
    refine ⟨(a.toList, b.toList), mem_dotSplits.2 ?_, by simp⟩
    simp

end Text

namespace Metadata

variable {m m' : Metadata} {p c : String}

def LiesIn (c p : String) : Prop := ∃ rest, c = p ++ "." ++ rest

/-! ## The table of packages -/

theorem getD_markPackages (packages : Table Bool) (c : String) :
    (markPackages packages c).getD p false = true ↔
      LiesIn c p ∨ packages.getD p false = true := by
  have hfold (splits : List (String × String)) (packages : Table Bool) :
      (splits.foldl (fun q split => q.insert split.1 true) packages).getD p false = true ↔
        (∃ rest, (p, rest) ∈ splits) ∨ packages.getD p false = true := by
    induction splits generalizing packages with
    | nil => simp
    | cons split rest ih =>
      obtain ⟨q, tail⟩ := split
      rw [List.foldl_cons, ih, Table.getD, Table.get?_insert]
      by_cases hq : p = q
      · simp [hq]
      · simp [hq, Table.getD]
  simp only [markPackages, hfold, Text.mem_splitsByLength]
  rfl

theorem getD_foldl_markPackages (names : List String) (packages : Table Bool) :
    (names.foldl markPackages packages).getD p false = true ↔
      (∃ c ∈ names, LiesIn c p) ∨ packages.getD p false = true := by
  induction names generalizing packages with
  | nil => simp
  | cons c rest ih => simp [ih, getD_markPackages, or_assoc, or_comm, or_left_comm]

theorem getD_recountPackages (packages : Table Bool) (names : List String) :
    (recountPackages packages names).getD p false = true ↔ ∃ c ∈ names, LiesIn c p := by
  rw [recountPackages, getD_foldl_markPackages, or_iff_left]
  rw [Table.getD, Table.get?_map]
  cases packages.get? p <;> simp

theorem contains_markPackages {packages : Table Bool} (c : String)
    (h : packages.contains p = true) : (markPackages packages c).contains p = true := by
  rw [markPackages]
  induction Text.splitsByLength c generalizing packages with
  | nil => exact h
  | cons split rest ih =>
    refine ih ?_
    rw [Table.contains, Table.get?_insert]
    split
    · rfl
    · exact h

theorem contains_recountPackages {packages : Table Bool} (names : List String)
    (h : packages.contains p = true) : (recountPackages packages names).contains p = true := by
  have hcleared : (packages.map fun _ _ => false).contains p = true := by
    rw [Table.contains, Table.get?_map, Option.isSome_map]
    exact h
  rw [recountPackages]
  generalize packages.map (fun _ _ => false) = cleared at hcleared
  induction names generalizing cleared with
  | nil => exact hcleared
  | cons c rest ih => exact ih _ (contains_markPackages c hcleared)

/-! ## Exact packages -/

def PackagesExact (m : Metadata) : Prop :=
  ∀ p, m.isPackage p = true ↔ ∃ c ∈ m.classnames, LiesIn c p

theorem packagesExact_empty (root : Path) : PackagesExact { rootDir := root } := by
  intro p
  constructor
  · rintro ⟨⟩
  · rintro ⟨c, ⟨⟩, -⟩

theorem packagesExact_forget (m : Metadata) (c : String) : (m.forget c).PackagesExact :=
  fun _ => getD_recountPackages _ _

theorem PackagesExact.put {r : ClassRecord} (hm : m.PackagesExact)
    (hrecords : m'.records = m.records.insert c r)
    (hpackages : m'.packages = markPackages m.packages c) : m'.PackagesExact := by
  intro p
  have hnames (d : String) : d ∈ m'.classnames ↔ d = c ∨ d ∈ m.classnames := by
    rw [mem_classnames, mem_classnames, record?, hrecords, Table.get?_insert]
    by_cases hd : d = c <;> simp [hd, record?]
  rw [isPackage, hpackages, getD_markPackages]
  have hbefore := hm p
  rw [isPackage] at hbefore
  simp only [hbefore, hnames, or_and_right, exists_or, exists_eq_left]

theorem PackagesExact.of_eq (hm : m.PackagesExact)
    (hnames : ∀ c, c ∈ m'.classnames ↔ c ∈ m.classnames) (hpackages : m'.packages = m.packages) :
    m'.PackagesExact := by
  intro p
  rw [isPackage, hpackages, ← isPackage, hm p]
  simp only [hnames]

theorem PackagesExact.vacated (hm : m.PackagesExact) (file : Path) (c : String) :
    (m.vacated file c).PackagesExact := by
  rw [Metadata.vacated]
  split
  · split
    · exact hm
    · exact packagesExact_forget m _
  · exact hm

theorem kept_packagesExact : Kept PackagesExact where
  stage := by
    intro m file time x _ hm
    exact (hm.vacated file x.record.classname).put (records_stage m file time x)
      (packages_stage m file time x)
  drop := by
    rintro m file c m' (hfile | _ | ⟨dirty, hfile⟩) hm
    · exact hm
    · exact (packagesExact_forget _ _).of_eq (fun _ => .rfl) rfl
  fail := by
    rintro m file e m' ⟨⟩ hm
    exact hm.of_eq (fun _ => .rfl) rfl
  renew := by
    intro m m' h hm
    exact hm.of_eq (fun _ => h.mem_classnames) h.packages
  restore := by
    intro m t c hm
    rcases restore_cases t m c with ⟨-, h⟩ | ⟨r, -, h⟩
    · rwa [h]
    · rw [h]
      exact hm.put rfl rfl

/-! ## Former packages -/

theorem contains_packages_forget (h : m.packages.contains p = true) (c : String) :
    (m.forget c).packages.contains p = true := contains_recountPackages _ h

theorem kept_contains_packages (p : String) : Kept (·.packages.contains p = true) where
  stage := by
    intro m file time x _ hm
    rw [packages_stage]
    refine contains_markPackages _ ?_
    rw [vacated]
    split
    · split
      · exact hm
      · exact contains_packages_forget hm _
    · exact hm
  drop := by
    rintro m file c m' (hfile | _ | ⟨dirty, hfile⟩) hm
    · exact hm
    · exact contains_packages_forget hm _
  fail := by
    rintro m file e m' ⟨⟩ hm
    exact hm
  renew := by
    intro m m' h hm
    rwa [h.packages]
  restore := by
    intro m t c hm
    rcases restore_cases t m c with ⟨-, h⟩ | ⟨r, -, h⟩
    · simpa only [h] using hm
    · simpa only [h] using contains_markPackages c hm

theorem contains_packages_of_isPackage (h : m.isPackage p = true) :
    m.packages.contains p = true := by
  rw [isPackage, Table.getD] at h
  rw [Table.contains]
  cases hp : m.packages.get? p with
  | none => simp [hp] at h
  | some present => rfl

theorem get?_packages_of_not_isPackage (hp : m.packages.contains p = true)
    (h : m.isPackage p = false) : m.packages.get? p = some false := by
  obtain ⟨present, hget⟩ := Table.contains_iff.1 hp
  rw [isPackage, Table.getD, hget] at h
  rw [hget]
  exact congrArg some h

/-- After any operations a name is a package exactly if some class lies in it, and a name that was one
before and is none any more is noted as such. -/
theorem isPackage_operated_iff (root : Path) (operations : List Operation) (p : String) :
    ((operated root operations).isPackage p = true ↔
      ∃ c ∈ (operated root operations).classnames, ∃ rest, c = p ++ "." ++ rest) ∧
    ∀ earlier, earlier <+: operations → (operated root earlier).isPackage p = true →
      (operated root operations).isPackage p = false →
      (operated root operations).packages.get? p = some false := by
  constructor
  · exact kept_packagesExact.operations operations (packagesExact_empty root) p
  · rintro earlier ⟨later, rfl⟩ hbefore hnow
    refine get?_packages_of_not_isPackage ?_ hnow
    rw [operated, List.foldl_append]
    exact (kept_contains_packages p).operations later (contains_packages_of_isPackage hbefore)

/-- One class in a package of its own and one in a package within it. -/
def nestedFiles : FileTree :=
  { nodes := Table.ofList [("/A.js", .file "qx.Class.define(\"a.A\",\x7b\x7d);" 1),
      ("/B.js", .file "qx.Class.define(\"a.b.B\",\x7b\x7d);" 1)] }

/-- Both classes are added, and the second one is removed. -/
def nestedRemoved : List Operation :=
  [.edit (.addFiles nestedFiles [(none, ⟨"/A.js"⟩), (none, ⟨"/B.js"⟩)] false),
    .edit (.removeFile nestedFiles ⟨"/B.js"⟩)]

theorem isPackage_operated_iff_removed :
    (operated ⟨"/"⟩ nestedRemoved).isPackage "a" = true ∧
    (operated ⟨"/"⟩ nestedRemoved).packages.get? "a.b" = some false := by
  obtain ⟨hclass, hbefore, hnow⟩ : "a.A" ∈ (operated ⟨"/"⟩ nestedRemoved).classnames ∧
      (operated ⟨"/"⟩ (nestedRemoved.take 1)).isPackage "a.b" = true ∧
      (operated ⟨"/"⟩ nestedRemoved).isPackage "a.b" = false := by
    decide +kernel
  constructor
  · exact (isPackage_operated_iff _ _ _).1.2 ⟨"a.A", hclass, "A", by decide⟩
  · exact (isPackage_operated_iff _ _ _).2 _ (List.take_prefix 1 _) hbefore hnow

end Metadata

end ClassForge
