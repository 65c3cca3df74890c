import ClassForge.ClassRecord.Extract
import ClassForge.Proofs.Files.Places

/-!
# What is read of a source

A record as it is read holds only what the definition of its class says, section by section. In
particular no member is abstract: abstract members come from interfaces when the metadata is
reconciled. And every record has the present form version.
-/

namespace ClassForge.ClassRecord

open Script (Source Node Span)

variable {src : Source} {file : String} {expected : Option String} {classType : ClassType} {span : Span}
  {args : List Node} {r : ClassRecord} {x : Extraction} {d d' : Draft}

theorem Finder.preserved {P : Finder → Prop}
    (hfound : ∀ f classType span args, P f → P (f.found src file expected classType span args)) :
    (∀ f n, P f → P (Finder.visit src file expected f n)) ∧
      ∀ f l, P f → P (Finder.visitAll src file expected f l) := by
  apply Finder.visit.mutual_induct
  case case1 =>
    intro f span callee args classType h hf
    rw [Finder.visit, h]
    exact hfound f classType span args hf
  case case2 =>
    intro f span callee args h ihcallee ihargs hf
    rw [Finder.visit, h]
    exact ihargs (ihcallee hf)
  -- every other node only has its parts looked through
  all_goals
    intros
    simp only [Finder.visit, Finder.visitAll]
    simp_all

/-! ## What reading keeps -/

/-- A record is that of the definition's head, or its sections are read into it. -/
theorem extract_cases (h : extract src file classType span args = .ok r) :
    ∃ place classname more, args = .string place classname :: more ∧
      let record := { new classname classType with
        sourceFilename := file
        location := some (src.extentOf span)
        doc := src.docBefore span.start }
      (r = record ∨ ∃ extent sections others d, more = .object extent sections :: others ∧
        readSections src file { record } (namedProperties sections) = .ok d ∧ r = d.finish) := by
  rw [extract.eq_def] at h
  repeat' split at h
  · cases h
    exact ⟨_, _, _, rfl, .inl rfl⟩
  · cases h
    exact ⟨_, _, _, rfl, .inl rfl⟩
  · obtain ⟨d, hs, hd⟩ := exists_of_bind_ok (f := fun d => .ok (Draft.finish d)) h
    cases hd
    exact ⟨_, _, _, rfl, .inr ⟨_, _, _, d, rfl, hs, rfl⟩⟩
  · cases h
  · cases h

theorem readSections_induct {P : Draft → Prop} {sections : List (Span × String × Node)}
    (step : ∀ {d d' span key value}, (span, key, value) ∈ sections →
      readSection src file d span key value = .ok d' → P d → P d')
    (hd : P d) (h : readSections src file d sections = .ok d') : P d' := by
  induction sections generalizing d with
  | nil =>
    cases h
    exact hd
  | cons s rest ih =>
    obtain ⟨span, key, value⟩ := s
    rw [readSections] at h
    obtain ⟨d₁, hs, h⟩ := exists_of_bind_ok h
    exact ih (fun hmem => step (List.mem_cons_of_mem _ hmem)) (step List.mem_cons_self hs hd) h

theorem head_readSection {key : String} {value : Node}
    (h : readSection src file d span key value = .ok d') :
    d'.record.classname = d.record.classname ∧ d'.record.version = d.record.version := by
  revert h
  fun_cases readSection src file d span key value
  all_goals
    intro h
    cases h
  all_goals exact ⟨rfl, rfl⟩

structure KeptByReading (P : ClassRecord → Prop) : Prop where
  new : ∀ classname classType sourceFilename location doc,
    P { new classname classType with sourceFilename, location, doc }
  readSection : ∀ {src file d d' span key value}, P d.record →
    readSection src file d span key value = .ok d' → P d'.record
  finish : ∀ {d : Draft}, P d.record → P d.finish

namespace KeptByReading

variable {P : ClassRecord → Prop} (hP : KeptByReading P)

include hP

theorem extract (h : extract src file classType span args = .ok r) : P r := by
  obtain ⟨_, _, _, -, rfl | ⟨_, _, _, d, -, hs, rfl⟩⟩ := extract_cases h
  · exact hP.new ..
  · exact hP.finish (readSections_induct (P := fun d => P d.record)
      (fun _ hs hd => hP.readSection hd hs) (hP.new ..) hs)

theorem visitAll {statements : List Node} (r : ClassRecord) :
    (Finder.visitAll src file expected {} statements).record = some r → P r := by
  refine (Finder.preserved (P := fun f => ∀ r, f.record = some r → P r) ?_).2 {} statements ?_ r
  · intro f classType span args hf r hr
    revert hr
    fun_cases Finder.found src file expected f classType span args
    all_goals intro hr
    · exact hf r hr
    · exact hf r hr
    · cases hr
      exact hP.extract ‹_›
    · exact hf r hr
  · intro r hr
    cases hr

theorem ofFile {t : FileTree} {file : Path} (h : ofFile t file expected = .ok x) : P x.record := by
  rw [ClassRecord.ofFile] at h
  rcases hsource : t.read file with e | source
  · rw [hsource] at h
    cases h
  · rw [hsource] at h
    replace h : ofSource source file.text expected = .ok x := h
    rw [ofSource] at h
    split at h
    · cases h
    · rw [ofProgram] at h
      split at h
      · cases h
      · cases h
        exact hP.visitAll _ ‹_›
      · cases h

end KeptByReading

/-! ## Concrete members -/

def Concrete (members : Table Member) : Prop :=
  ∀ n a, members.get? n = some a → a.isAbstract = false

theorem concrete_empty : Concrete .empty := by
  intro n a h
  cases h

theorem Concrete.insert {members : Table Member} (h : Concrete members) (n : String) {a : Member}
    (ha : a.isAbstract = false) : Concrete (members.insert n a) := by
  intro n' a' h'
  rw [Table.get?_insert] at h'
  split at h'
  · cases h'
    exact ha
  · exact h n' a' h'

theorem concrete_membersOf (src : Source) (entries : List Node) :
    Concrete (membersOf src entries) := by
  rw [membersOf]
  dsimp only
  generalize annotationsOf src (namedProperties entries) = annotations
  have hmembers := concrete_empty
  generalize (Table.empty : Table Member) = members at hmembers
  induction namedProperties entries generalizing members annotations with
  | nil => exact hmembers
  | cons property rest ih =>
    obtain ⟨span, key, value⟩ := property
    rw [List.foldl_cons]
    dsimp only
    split
    · exact ih annotations members hmembers
    · exact ih _ _ (hmembers.insert key rfl)

theorem concrete_readSection {key : String} {value : Node} (hd : Concrete d.record.members)
    (h : readSection src file d span key value = .ok d') : Concrete d'.record.members := by
  revert h
  fun_cases readSection src file d span key value
  all_goals
    intro h
    cases h
  -- the section of the members is the only one that sets them
  case case8 entries => exact concrete_membersOf src entries
  all_goals exact hd

theorem kept_concrete : KeptByReading fun r => Concrete r.members where
  new := by
    intros
    exact concrete_empty
  readSection := concrete_readSection
  finish hd := hd

theorem concrete_ofFile {t : FileTree} {file : Path} (h : ofFile t file expected = .ok x) :
    Concrete x.record.members := kept_concrete.ofFile h

/-! ## The form version -/

theorem kept_version : KeptByReading fun r => r.version = formVersion where
  new := by
    intros
    rfl
  readSection hd h := (head_readSection h).2.trans hd
  finish hd := hd

theorem version_ofFile {t : FileTree} {file : Path} (h : ofFile t file expected = .ok x) :
    x.record.version = formVersion := kept_version.ofFile h

end ClassForge.ClassRecord
