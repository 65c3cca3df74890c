import ClassForge.Proofs.Metadata.Staging

/-!
# Batches and single files

A batch finds out which files have to be read before it puts any of them in place, whereas files that
are added one after another see what those before them have left. If every file declares the class it
is listed under, none of them touches the record of another, so both come to the same metadata.
-/

namespace ClassForge.Metadata

variable {m m' : Metadata} {t : FileTree} {force : Bool} {c : String} {file : Path}
  {items : List (String × Path)} {item other : String × Path} {a : Reading}

/-! ## Single files -/

theorem addClassFile_cases (m : Metadata) (t : FileTree) (classname : Option String) (file : Path)
    (force : Bool) :
    (∃ a, m.read? t classname file force = some a ∧
      m.addClassFile t classname file force = .ok (true, m.put a)) ∨
    m.read? t classname file force = none ∧
      (m.addClassFile t classname file force = .ok (false, m) ∨
        ∃ e, m.addClassFile t classname file force = .error e) := by
  rw [addClassFile, read?]
  cases t.modified file with
  | error e => exact .inr ⟨rfl, .inr ⟨_, rfl⟩⟩
  | ok time =>
    simp only [Except.mapError, bind, Except.bind]
    by_cases hfresh : (!force && !m.isStale classname file time) = true
    · rw [if_pos hfresh, if_pos hfresh]
      exact .inr ⟨rfl, .inl rfl⟩
    · rw [if_neg hfresh, if_neg hfresh]
      cases ClassRecord.ofFile t file classname with
      | error e => exact .inr ⟨rfl, .inr ⟨_, rfl⟩⟩
      | ok x => exact .inl ⟨_, rfl, rfl⟩

def readListed? (m : Metadata) (t : FileTree) (force : Bool) (item : String × Path) :
    Option Reading := m.read? t (some item.1) item.2 force

theorem of_readListed? (h : m.readListed? t force item = some a) :
    a.1 = item.2 ∧ ClassRecord.ofFile t item.2 (some item.1) = .ok a.2.2 := by
  rw [readListed?, read?] at h
  split at h
  · cases h
  · split at h
    · cases h
    · split at h
      · cases h
      · next x hx =>
        cases h
        exact ⟨rfl, hx⟩

theorem readListed?_congr (h : m'.record? item.1 = m.record? item.1) (t : FileTree) (force : Bool) :
    m'.readListed? t force item = m.readListed? t force item := by
  have hstale (time : UInt64) :
      m'.isStale (some item.1) item.2 time = m.isStale (some item.1) item.2 time := by
    rw [isStale, isStale, Option.some_or, Option.some_or, Option.bind_some, Option.bind_some, h]
  rw [readListed?, readListed?, read?, read?]
  simp only [hstale]

/-- Whether adding a file alone reads it. -/
def renews (m : Metadata) (t : FileTree) (force : Bool) (item : String × Path) : Bool :=
  match m.addClassFile t (some item.1) item.2 force with
  | .ok (changed, _) => changed
  | .error _ => false

theorem renews_eq (m : Metadata) (t : FileTree) (force : Bool) (item : String × Path) :
    m.renews t force item = (m.readListed? t force item).isSome := by
  rw [renews, readListed?]
  obtain ⟨a, hread, hadd⟩ | ⟨hread, hadd | ⟨e, hadd⟩⟩ :=
    m.addClassFile_cases t (some item.1) item.2 force
  all_goals
    rw [hread, hadd]
    rfl

/-- Adds files one after another, each with the class it should define, and passes over those that
fail. Gives the classes whose files were read. -/
def addEach (m : Metadata) (t : FileTree) (force : Bool) :
    List (String × Path) → List String × Metadata
  | [] => ([], m)
  | item :: rest =>
    match m.addClassFile t (some item.1) item.2 force with
    | .ok (true, m') => (item.1 :: (m'.addEach t force rest).1, (m'.addEach t force rest).2)
    | .ok (false, m') => m'.addEach t force rest
    | .error _ => m.addEach t force rest

theorem addEach_of_read (h : m.readListed? t force item = some a) :
    m.addEach t force (item :: items) =
      (item.1 :: ((m.put a).addEach t force items).1, ((m.put a).addEach t force items).2) := by
  obtain ⟨b, hread, hadd⟩ | ⟨hread, -⟩ := m.addClassFile_cases t (some item.1) item.2 force
  · cases hread.symm.trans h
    rw [addEach, hadd]
  · cases hread.symm.trans h

theorem addEach_of_unread (h : m.readListed? t force item = none) :
    m.addEach t force (item :: items) = m.addEach t force items := by
  obtain ⟨b, hread, -⟩ | ⟨-, hadd | ⟨e, hadd⟩⟩ := m.addClassFile_cases t (some item.1) item.2 force
  · cases hread.symm.trans h
  · rw [addEach, hadd]
  · rw [addEach, hadd]

/-! ## Batches -/

/-- Different files are listed under different classes. None is registered under another class, and
each declares its class if it can be read. -/
structure Coherent (m : Metadata) (t : FileTree) (items : List (String × Path)) : Prop where
  files : items.Pairwise fun a b => a.2.plain ≠ b.2.plain
  classes : items.Pairwise fun a b => a.1 ≠ b.1
  registered : ∀ item ∈ items, m.classOf? item.2 = none ∨ m.classOf? item.2 = some item.1
  declared : ∀ item ∈ items, ∀ x, ClassRecord.ofFile t item.2 (some item.1) = .ok x →
    x.record.classname = item.1

def entryOf (item : String × Path) : Option String × Path := (some item.1, item.2)

theorem addFiles_entries (m : Metadata) (t : FileTree) (items : List (String × Path)) (force : Bool) :
    m.addFiles t (items.map entryOf) force =
      ((items.filterMap (m.readListed? t force)).map Reading.classname,
        m.stageAll (items.filterMap (m.readListed? t force))) := by
  have hfound : (items.map entryOf).filterMap (m.pending? t force) =
      items.filterMap (m.readListed? t force) := by
    rw [List.filterMap_map]
    exact List.filterMap_congr fun item _ => m.pending?_eq_read? t force (some item.1) item.2
  rw [addFiles, hfound]
  rfl

theorem Coherent.tail (h : m.Coherent t (item :: items)) : m.Coherent t items where
  files := (List.pairwise_cons.1 h.files).2
  classes := (List.pairwise_cons.1 h.classes).2
  registered := (List.forall_mem_cons.1 h.registered).2
  declared := (List.forall_mem_cons.1 h.declared).2

theorem Coherent.classname_eq (h : m.Coherent t (item :: items))
    (hread : m.readListed? t force item = some a) : a.classname = item.1 :=
  h.declared item List.mem_cons_self _ (of_readListed? hread).2

theorem Coherent.record?_put (h : m.Coherent t (item :: items))
    (hread : m.readListed? t force item = some a) (hc : c ≠ item.1) :
    (m.put a).record? c = m.record? c := by
  rw [Metadata.record?_put, h.classname_eq hread, if_neg hc, (of_readListed? hread).1, if_neg]
  intro hfile
  obtain hnone | hsome := h.registered item List.mem_cons_self
  · cases hnone.symm.trans hfile
  · exact hc (Option.some.inj (hfile.symm.trans hsome))

theorem Coherent.put (h : m.Coherent t (item :: items))
    (hread : m.readListed? t force item = some a) : (m.put a).Coherent t items := by
  refine ⟨h.tail.files, h.tail.classes, fun other hother => ?_, h.tail.declared⟩
  have hplain := (List.pairwise_cons.1 h.files).1 other hother
  rw [classOf?_put, (of_readListed? hread).1, if_neg (Ne.symm hplain)]
  exact h.tail.registered other hother

theorem Coherent.readListed?_put (h : m.Coherent t (item :: items))
    (hread : m.readListed? t force item = some a) (hother : other ∈ items) :
    (m.put a).readListed? t force other = m.readListed? t force other :=
  readListed?_congr (h.record?_put hread (Ne.symm ((List.pairwise_cons.1 h.classes).1 other hother)))
    t force

theorem Coherent.addFiles_eq (h : m.Coherent t items) :
    m.addFiles t (items.map entryOf) force = m.addEach t force items := by
  rw [addFiles_entries]
  induction items generalizing m with
  | nil => rfl
  | cons item rest ih =>
    cases hread : m.readListed? t force item with
    | none =>
      rw [List.filterMap_cons_none hread, addEach_of_unread hread]
      exact ih h.tail
    | some a =>
      -- what the batch has read at the start is what the single files find later
      have hrest : rest.filterMap (m.readListed? t force) =
          rest.filterMap ((m.put a).readListed? t force) :=
        List.filterMap_congr fun other hother => (h.readListed?_put hread hother).symm
      rw [List.filterMap_cons_some hread, addEach_of_read hread, ← ih (h.put hread), hrest,
        ← h.classname_eq hread]
      rfl

theorem Coherent.addEach_fst (h : m.Coherent t items) :
    (m.addEach t force items).1 = (items.filter (m.renews t force)).map Prod.fst := by
  induction items generalizing m with
  | nil => rfl
  | cons item rest ih =>
    rw [List.filter_cons, renews_eq]
    cases hread : m.readListed? t force item with
    | none =>
      rw [addEach_of_unread hread]
      exact ih h.tail
    | some a =>
      have hrest : rest.filter (m.renews t force) = rest.filter ((m.put a).renews t force) :=
        List.filter_congr fun other hother => by
          rw [renews_eq, renews_eq, h.readListed?_put hread hother]
      rw [addEach_of_read hread, ih (h.put hread), hrest]
      rfl

theorem Coherent.record?_addEach (h : m.Coherent t items) (hc : c ∉ (m.addEach t force items).1) :
    (m.addEach t force items).2.record? c = m.record? c := by
  induction items generalizing m with
  | nil => rfl
  | cons item rest ih =>
    cases hread : m.readListed? t force item with
    | none =>
      rw [addEach_of_unread hread] at hc ⊢
      exact ih h.tail hc
    | some a =>
      rw [addEach_of_read hread] at hc ⊢
      rw [List.mem_cons, not_or] at hc
      obtain ⟨hfirst, hrest⟩ := hc
      rw [ih (h.put hread) hrest, h.record?_put hread hfirst]

theorem Coherent.eq_of_class (h : m.Coherent t items) (hitem : item ∈ items) (hother : other ∈ items)
    (hclass : item.1 = other.1) : item = other :=
  List.inj_on_of_nodup_map (List.pairwise_map.2 h.classes) hitem hother hclass

/-- Reading many files at once is the same as adding them one after another and passing over those that
fail. The classes given are those whose files would be read alone, in the same order, and a file that
cannot be added leaves the record of its class as it was. -/
theorem addFiles_eq_addEach (h : m.Coherent t items) (force : Bool) :
    m.addFiles t (items.map entryOf) force = m.addEach t force items ∧
      (m.addFiles t (items.map entryOf) force).1 =
        (items.filter (m.renews t force)).map Prod.fst ∧
      ∀ item ∈ items, ∀ e, m.addClassFile t (some item.1) item.2 force = .error e →
        (m.addFiles t (items.map entryOf) force).2.record? item.1 = m.record? item.1 := by
  rw [h.addFiles_eq]
  refine ⟨rfl, h.addEach_fst, fun item hitem e herror => h.record?_addEach fun hmem => ?_⟩
  rw [h.addEach_fst, List.mem_map] at hmem
  obtain ⟨other, hother, hclass⟩ := hmem
  obtain ⟨hother, hrenews⟩ := List.mem_filter.1 hother
  obtain rfl := h.eq_of_class hother hitem hclass
  rw [renews, herror] at hrenews
  cases hrenews

/-- One file is no program any more, and another one is new. -/
def brokenFiles : FileTree :=
  { nodes := Table.ofList [("/A.js", .file "(" 2),
      ("/B.js", .file "qx.Class.define(\"b.B\",\x7b\x7d);" 1)] }

def readBefore : Metadata :=
  stage { rootDir := ⟨"/m"⟩ } ⟨"/A.js"⟩ 1
    { record := { (default : ClassRecord) with classname := "a.A" }, warnings := [] }

def listedFiles : List (String × Path) := [("a.A", ⟨"/A.js"⟩), ("b.B", ⟨"/B.js"⟩)]

theorem coherent_listedFiles : readBefore.Coherent brokenFiles listedFiles := by
  have hdeclared : ∀ item ∈ listedFiles,
      ((ClassRecord.ofFile brokenFiles item.2 (some item.1)).toOption.all
        fun x => x.record.classname = item.1) = true := by decide +kernel
  refine ⟨by decide +kernel, by decide +kernel, by decide +kernel, fun item hitem x hx => ?_⟩
  have hclass := hdeclared item hitem
  rw [hx] at hclass
  exact of_decide_eq_true hclass

theorem addFiles_eq_addEach_broken :
    (readBefore.addFiles brokenFiles (listedFiles.map entryOf) false).1 = ["b.B"] ∧
      readBefore.addFiles brokenFiles (listedFiles.map entryOf) false =
        readBefore.addEach brokenFiles false listedFiles ∧
      (readBefore.addFiles brokenFiles (listedFiles.map entryOf) false).2.record? "a.A" =
        readBefore.record? "a.A" := by
  obtain ⟨hbroken, hread⟩ :
      (readBefore.addClassFile brokenFiles (some "a.A") ⟨"/A.js"⟩ false).isOk = false ∧
      (listedFiles.filter (readBefore.renews brokenFiles false)).map Prod.fst = ["b.B"] := by
    decide +kernel
  obtain ⟨hsame, hnames, hkept⟩ := addFiles_eq_addEach coherent_listedFiles false
  refine ⟨hnames.trans hread, hsame, ?_⟩
  cases herror : readBefore.addClassFile brokenFiles (some "a.A") ⟨"/A.js"⟩ false with
  | ok result =>
    rw [herror] at hbroken
    cases hbroken
  | error e => exact hkept ("a.A", ⟨"/A.js"⟩) List.mem_cons_self e herror

end ClassForge.Metadata
