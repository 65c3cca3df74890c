import ClassForge.Proofs.Extract
import ClassForge.Proofs.Metadata.Incremental
import ClassForge.Proofs.Metadata.Operations

/-!
# Well-formed metadata

Metadata that comes from the sources of its classes has every record under the name of its class,
and no class declares an abstract member. That stays so when stored records of this kind are loaded.
-/

namespace ClassForge.Metadata

open ClassRecord (Concrete)

variable {m m' : Metadata}

/-- Every record is kept under the name of its class and declares no abstract member. -/
structure WellFormed (m : Metadata) : Prop where
  keyed : m.Keyed
  concrete : ∀ c r, m.record? c = some r → Concrete r.bare.members

theorem concrete_bare {r : ClassRecord} (h : Concrete r.members) : Concrete r.bare.members := by
  intro n a ha
  rw [ClassRecord.get?_bare_members, Option.map_eq_some_iff] at ha
  obtain ⟨b, hb, rfl⟩ := ha
  rw [ClassRecord.ownMember?, Option.filter_eq_some_iff] at hb
  exact h n b hb.1

theorem SameSources.wellFormed (h : m.SameSources m') (hm : m.WellFormed) : m'.WellFormed where
  keyed := h.keyed hm.keyed
  concrete c r' hr' := by
    obtain ⟨r, hr, hbare⟩ := h.symm.record? hr'
    rw [← hbare]
    exact hm.concrete c r hr

/-! ## Records from sources and from the files -/

/-- What is loaded has a property of records under their names. -/
def Operation.Restores (P : String → ClassRecord → Prop) (m : Metadata) : Operation → Prop
  | load t => ∀ c r, stored? t m.rootDir c = some r → P c r
  | _ => True

/-- Metadata that is filled from sources and from stored records with a property. -/
inductive Gathered (P : String → ClassRecord → Prop) : Metadata → Prop where
  | empty (root : Path) : Gathered P { rootDir := root }
  | run {m : Metadata} {op : Operation} : Gathered P m → op.Restores P m → Gathered P (op.run m)

theorem Gathered.runAll {P : String → ClassRecord → Prop} (h : m.Gathered P) (edits : List Edit) :
    (m.runAll edits).Gathered P := by
  induction edits generalizing m with
  | nil => exact h
  | cons e rest ih => exact ih (h.run (show (Operation.edit e).Restores P m from trivial))

/-- A property that records from sources have and that reconciling keeps. -/
structure Lasting (P : String → ClassRecord → Prop) : Prop where
  named : ∀ {c r}, P c r → r.classname = c
  bare : ∀ {c r r'}, r.bare = r'.bare → P c r → P c r'
  genuine : ∀ {file time x}, Genuine (file, time, x) → P x.record.classname (staged file time x)

def Each (P : String → ClassRecord → Prop) (m : Metadata) : Prop := ∀ c r, m.record? c = some r → P c r

section

variable {P : String → ClassRecord → Prop} (hP : Lasting P) (hm : m.Each P)

include hP hm

theorem Each.stageAll {found : List Reading} (h : ∀ reading ∈ found, Genuine reading) :
    (m.stageAll found).Each P := by
  induction found generalizing m with
  | nil => exact hm
  | cons reading rest ih =>
    obtain ⟨file, time, x⟩ := reading
    obtain ⟨hx, hrest⟩ := List.forall_mem_cons.1 h
    refine ih (fun c r hr => ?_) hrest
    rw [record?_stage] at hr
    split_ifs at hr with hc
    · cases hr
      exact hc ▸ hP.genuine hx
    · exact hm c r hr

theorem Each.runEdit (e : Edit) : (e.run m).Each P := by
  cases hadds : e.adds with
  | true =>
    rw [Edit.run_eq_stageAll hadds]
    exact hm.stageAll hP fun _ => genuine_found
  | false =>
    cases e with
    | removeFile t file =>
      intro c r hr
      rw [Edit.run, (removal_removeFile m file t).record?] at hr
      split_ifs at hr
      exact hm c r hr
    | markDirty c =>
      rw [Edit.run, markDirty]
      split
      · exact hm
      · exact hm
    | reconcile t =>
      have hkeyed : m.Keyed := fun c r hr => hP.named (hm c r hr)
      intro c r' hr'
      obtain ⟨r, hr, hbare⟩ := (hkeyed.sameSources_reconcile t).symm.record? hr'
      exact hP.bare hbare (hm c r hr)
    | _ => cases hadds

omit hP in
theorem Each.foldl_restore {t : FileTree} (hstored : ∀ c r, stored? t m.rootDir c = some r → P c r)
    (l : List String) : (l.foldl (restore t) m).Each P := by
  induction l generalizing m with
  | nil => exact hm
  | cons d rest ih =>
    rw [List.foldl_cons]
    rcases restore_cases t m d with ⟨_, heq⟩ | ⟨r, hr, heq⟩
    · rw [heq]
      exact ih hm hstored
    · rw [heq]
      refine ih (fun c r' hr' => ?_) hstored
      rw [record?, Table.get?_insert] at hr'
      split_ifs at hr' with hc
      · cases hr'
        exact hc ▸ hstored d r hr
      · exact hm c r' hr'

end

theorem Gathered.each {P : String → ClassRecord → Prop} (h : m.Gathered P) (hP : Lasting P) :
    m.Each P := by
  induction h with
  | empty root =>
    intro c r hr
    cases hr
  | @run m op _ hop hm =>
    cases op with
    | edit e => exact hm.runEdit hP e
    | addChecks checks => exact hm
    | load t =>
      rcases load_cases m t with heq | ⟨index, heq⟩
      · rw [heq]
        exact hm
      · rw [heq]
        exact Each.foldl_restore (m := m.addEnvironmentChecks index.environmentChecks) hm hop _

theorem Gathered.keyed (h : m.Gathered fun c r => r.classname = c) : m.Keyed :=
  h.each ⟨id, fun hbare hc => (congrArg ClassRecord.classname hbare).symm.trans hc, fun _ => rfl⟩

theorem Gathered.wellFormed (h : m.Gathered fun c r => r.classname = c ∧ Concrete r.bare.members) :
    m.WellFormed := by
  have hlasting : Lasting fun c r => r.classname = c ∧ Concrete r.bare.members := by
    refine ⟨And.left, fun hbare h => ⟨?_, hbare ▸ h.2⟩, ?_⟩
    · exact (congrArg ClassRecord.classname hbare).symm.trans h.1
    · rintro file time x ⟨t, expected, hfile⟩
      exact ⟨rfl, concrete_bare (ClassRecord.concrete_ofFile hfile)⟩
  have heach := h.each hlasting
  exact ⟨fun c r hr => (heach c r hr).1, fun c r hr => (heach c r hr).2⟩

end ClassForge.Metadata
