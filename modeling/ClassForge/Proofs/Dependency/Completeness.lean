import ClassForge.Proofs.Dependency.Foundations
import ClassForge.Proofs.Metadata.Packages
import ClassForge.Proofs.Script.Names

/-!
# Nothing that a program refers to is missed

Every class that a program names, or whose member it names, is among its dependencies, wherever the
name stands. The arguments of a definition are the exception: of these only the values of the sections
with a name written out are looked at, and of the sections `members` and `statics` only the values of
their entries.
-/

namespace ClassForge

open Script (Node Source)

namespace Resolver

variable {r : Resolver} {name classname : String}

theorem eq_of_symbol?_aClass (h : r.symbol? name = some (.aClass classname)) :
    (r.record? name).isSome = true ∧ classname = name := by
  unfold symbol? at h
  split_ifs at h with hrecord
  · cases h
    exact ⟨hrecord, rfl⟩
  all_goals grind [Option.map_eq_some_iff]

theorem eq_of_symbol?_member {path : String} (h : r.symbol? name = some (.member classname path)) :
    name = classname ++ "." ++ path := by
  have hnearest : r.nearestClass? name = some (classname, path) := by
    unfold symbol? at h
    grind [Option.map_eq_some_iff]
  exact Text.mem_splitsByLength.1 (List.mem_of_find?_eq_some hnearest)

end Resolver

namespace Dependency

/-! ## References -/

mutual

/-- The dotted names that a part of a program refers to, each as long as it is written. Unless they
are wanted from everywhere, those in the arguments of a definition are left out that collecting
dependencies passes over. -/
def references (everywhere : Bool) : Node → List String
  | .call _ callee args =>
    references everywhere callee ++
      if everywhere || !ClassRecord.defines callee args then referencesOfAll everywhere args
      else referencesOfDefinition everywhere args
  | .name _ text => [text]
  | .this _ => ["this"]
  | .member _ o property =>
    match o.dottedName? with
    | some base => [base ++ "." ++ property]
    | none => references everywhere o
  | .string .. | .number .. | .boolean .. | .null .. | .hole .. => []
  | .paren _ o | .spread _ o | .unary _ _ o => references everywhere o
  | .index _ o parts | .new _ o parts => references everywhere o ++ referencesOfAll everywhere parts
  | .property _ _ computed value => referencesOfAll everywhere computed ++ references everywhere value
  | .array _ parts | .object _ parts | .param _ _ parts | .rest _ parts | .sequence _ parts
  | .arrowHead _ parts | .compound _ parts => referencesOfAll everywhere parts
  | .func _ params body => referencesOfAll everywhere params ++ referencesOfAll everywhere body
  | .binary _ _ l r | .assign _ l r | .shorthandDefault _ l r =>
    references everywhere l ++ references everywhere r

/-- The dotted names that parts of a program refer to. -/
def referencesOfAll (everywhere : Bool) : List Node → List String
  | [] => []
  | n :: rest => references everywhere n ++ referencesOfAll everywhere rest

def referencesOfDefinition (everywhere : Bool) : List Node → List String
  | _ :: .object _ sections :: _ => referencesOfSections everywhere sections
  | _ => []

def referencesOfSections (everywhere : Bool) : List Node → List String
  | [] => []
  | .property _ (some key) _ value :: rest =>
    let here :=
      if key = "members" ∨ key = "statics" then
        match value with
        | .object _ entries => referencesOfEntries everywhere entries
        | other => references everywhere other
      else references everywhere value
    here ++ referencesOfSections everywhere rest
  | _ :: rest => referencesOfSections everywhere rest

def referencesOfEntries (everywhere : Bool) : List Node → List String
  | [] => []
  | .property _ _ _ value :: rest =>
    references everywhere value ++ referencesOfEntries everywhere rest
  | _ :: rest => referencesOfEntries everywhere rest

end

theorem references_of_dottedName? (everywhere : Bool) {name : String} :
    (n : Node) → n.dottedName? = some name → references everywhere n = [name]
  | .name _ text, h => by
    cases h
    rw [references]
  | .this _, h => by
    cases h
    rw [references]
  | .member _ o property, h => by
    obtain ⟨base, hbase, rfl⟩ := Option.map_eq_some_iff.1 h
    rw [references, hbase]
  | .paren _ o, h => by
    rw [references]
    exact references_of_dottedName? everywhere o h

/-! ## References are mentioned -/

structure Setting.Resolves (s : Setting) (name classname : String) : Prop where
  notHost : Text.rootOf name ∉ hostGlobals
  notIgnored : s.isIgnored name = false
  symbol : s.resolver.symbol? name = some (.aClass classname) ∨
    ∃ path, s.resolver.symbol? name = some (.member classname path)

namespace Setting.Resolves

variable {s : Setting} {name classname : String}

theorem target?_dotted (h : s.Resolves name classname) (span : Script.Span) :
    s.target? (.dotted name span) = some classname := by
  have hkept : ¬(hostGlobals.contains (Text.rootOf name) || s.isIgnored name) = true := by
    simp [h.notHost, h.notIgnored]
  rw [Setting.target?, if_neg hkept]
  obtain hsymbol | ⟨path, hsymbol⟩ := h.symbol <;> rw [hsymbol] <;> rfl

theorem target?_bare (h : s.Resolves name classname) (hname : '.' ∉ name.toList) :
    s.target? (.bare name) = some classname := by
  obtain hsymbol | ⟨path, hsymbol⟩ := h.symbol
  · obtain ⟨hrecord, rfl⟩ := Resolver.eq_of_symbol?_aClass hsymbol
    rw [Setting.target?, if_pos hrecord]
  · rw [Resolver.eq_of_symbol?_member hsymbol] at hname
    simp at hname

end Setting.Resolves

namespace Trace

def LeadsTo (s : Setting) (classname : String) (t : Trace) : Prop :=
  ∃ m ∈ t.mentions, s.target? m.2 = some classname

variable {s : Setting} {name classname : String}

theorem LeadsTo.extend {t t' : Trace} (h : t.LeadsTo s classname) (ht : t.Extends t') :
    t'.LeadsTo s classname := by
  obtain ⟨m, hm, htarget⟩ := h
  exact ⟨m, ht hm, htarget⟩

/-- Of two parts, looked at one after the other, either may refer to the class. -/
theorem leadsTo_append {t t' : Trace} {a b : List String} (h : name ∈ a ++ b)
    (ha : name ∈ a → t.LeadsTo s classname) (ht : t.Extends t')
    (hb : name ∈ b → t'.LeadsTo s classname) : t'.LeadsTo s classname :=
  (List.mem_append.1 h).elim (fun h => (ha h).extend ht) hb

theorem leadsTo_add (phase : Phase) (t : Trace) {m : Mention} (h : s.target? m = some classname) :
    (t.add phase m).LeadsTo s classname :=
  ⟨(phase, m), by simp [add], h⟩

theorem leadsTo_of_dottedName? (h : s.Resolves name classname) (phase : Phase) (t : Trace) :
    (n : Node) → n.Undotted → n.dottedName? = some name → (t.visit phase n).LeadsTo s classname
  | .name _ text, hn, hname => by
    cases hname
    rw [visit]
    exact leadsTo_add phase t (h.target?_bare hn)
  | .this _, _, hname => absurd (by cases hname; decide) h.notHost
  | .member span o property, _, hname => by
    obtain ⟨base, hbase, rfl⟩ := Option.map_eq_some_iff.1 hname
    have hthis : ¬Text.startsWith "this." (base ++ "." ++ property) = true := fun hstart =>
      h.notHost (by rw [rootOf_eq_this hstart]; decide)
    rw [visit, hbase]
    dsimp only
    rw [if_neg hthis]
    exact leadsTo_add phase t (h.target?_dotted span)
  | .paren _ o, hn, hname => by
    rw [visit]
    exact leadsTo_of_dottedName? h phase t o hn hname

mutual

theorem leadsTo_visit (h : s.Resolves name classname) (phase : Phase) (t : Trace) : (n : Node) →
    n.Undotted → name ∈ references false n → (t.visit phase n).LeadsTo s classname
  | .call span callee args, hn, hname => by
    obtain ⟨hncallee, hnargs⟩ := hn
    rw [references] at hname
    rw [visit]
    cases hcallee : callee.dottedName? with
    | none =>
      have hplain : ClassRecord.defines callee args = false := by
        rw [ClassRecord.defines, hcallee]
        rfl
      rw [hplain] at hname
      exact leadsTo_append hname (leadsTo_visit h phase t callee hncallee)
        (extends_visitAll phase _ args) (leadsTo_visitAll h phase _ args hnargs)
    | some base =>
      have hdefines : ClassRecord.defines callee args = Harvest.isDefinition base args := by
        rw [ClassRecord.defines, hcallee]
        rfl
      rw [hdefines] at hname
      dsimp only
      split
      · next hdef =>
        -- a definition mentions its callee, and then what its sections hold
        rw [references_of_dottedName? false callee hcallee, hdef] at hname
        obtain rfl | hname := List.mem_cons.1 hname
        · refine (leadsTo_add phase t (h.target?_dotted span)).extend ?_
          split
          · exact extends_visitSections phase _ _
          · exact .refl _
        · exact leadsTo_visitDefinition h phase _ args hnargs hname
      · next hdef =>
        rw [Bool.not_eq_true] at hdef
        rw [hdef] at hname
        exact leadsTo_append hname (leadsTo_visit h phase _ callee hncallee)
          (extends_visitAll phase _ args) (leadsTo_visitAll h phase _ args hnargs)
  | .member span o property, hn, hname => by
    rw [references] at hname
    cases ho : o.dottedName? with
    | none =>
      rw [ho] at hname
      rw [visit, ho]
      exact leadsTo_visit h phase t o hn hname
    | some base =>
      rw [ho] at hname
      obtain rfl := List.mem_singleton.1 hname
      exact leadsTo_of_dottedName? h phase t _ hn (by rw [Node.dottedName?, ho]; rfl)
  | .name span text, hn, hname => by
    rw [references] at hname
    obtain rfl := List.mem_singleton.1 hname
    exact leadsTo_of_dottedName? h phase t _ hn rfl
  | .this span, hn, hname => by
    rw [references] at hname
    obtain rfl := List.mem_singleton.1 hname
    exact leadsTo_of_dottedName? h phase t (.this span) hn rfl
  | .func _ params body, hn, hname => by
    rw [references] at hname
    rw [visit]
    exact leadsTo_append hname (leadsTo_visitAll h _ _ params hn.1) (extends_visitAll _ _ body)
      (leadsTo_visitAll h _ _ body hn.2)
  | .string .., _, hname | .number .., _, hname | .boolean .., _, hname | .null .., _, hname
  | .hole .., _, hname => by simp [references] at hname
  | .paren _ o, hn, hname | .spread _ o, hn, hname | .unary _ _ o, hn, hname => by
    simp only [references] at hname
    simp only [visit]
    exact leadsTo_visit h phase t o hn hname
  | .index _ o parts, hn, hname | .new _ o parts, hn, hname => by
    simp only [references] at hname
    simp only [visit]
    exact leadsTo_append hname (leadsTo_visit h phase t o hn.1) (extends_visitAll phase _ parts)
      (leadsTo_visitAll h phase _ parts hn.2)
  | .property _ _ computed value, hn, hname => by
    rw [references] at hname
    rw [visit]
    exact leadsTo_append hname (leadsTo_visitAll h phase t computed hn.2) (extends_visit phase _ value)
      (leadsTo_visit h phase _ value hn.1)
  | .array _ parts, hn, hname | .object _ parts, hn, hname | .param _ _ parts, hn, hname
  | .rest _ parts, hn, hname | .sequence _ parts, hn, hname | .arrowHead _ parts, hn, hname
  | .compound _ parts, hn, hname => by
    simp only [references] at hname
    simp only [visit]
    exact leadsTo_visitAll h phase t parts hn hname
  | .binary _ _ l r, hn, hname | .assign _ l r, hn, hname | .shorthandDefault _ l r, hn, hname => by
    simp only [references] at hname
    simp only [visit]
    exact leadsTo_append hname (leadsTo_visit h phase t l hn.1) (extends_visit phase _ r)
      (leadsTo_visit h phase _ r hn.2)

theorem leadsTo_visitAll (h : s.Resolves name classname) (phase : Phase) (t : Trace) :
    (l : List Node) → Node.AllUndotted l → name ∈ referencesOfAll false l →
      (t.visitAll phase l).LeadsTo s classname
  | [], _, hname => by simp [referencesOfAll] at hname
  | n :: rest, hl, hname => by
    rw [referencesOfAll] at hname
    rw [visitAll]
    exact leadsTo_append hname (leadsTo_visit h phase t n hl.1) (extends_visitAll phase _ rest)
      (leadsTo_visitAll h phase _ rest hl.2)

theorem leadsTo_visitDefinition (h : s.Resolves name classname) (phase : Phase) (t : Trace) :
    (l : List Node) → Node.AllUndotted l → name ∈ referencesOfDefinition false l →
      LeadsTo s classname (match l with
        | _ :: .object _ sections :: _ => t.visitSections phase sections
        | _ => t)
  | _ :: .object _ sections :: _, hl, hname => by
    rw [referencesOfDefinition] at hname
    exact leadsTo_visitSections h phase t sections (by simp_all [Node.AllUndotted]) hname

theorem leadsTo_visitSections (h : s.Resolves name classname) (phase : Phase) (t : Trace) :
    (l : List Node) → Node.AllUndotted l → name ∈ referencesOfSections false l →
      (t.visitSections phase l).LeadsTo s classname
  | [], _, hname => by simp [referencesOfSections] at hname
  | n :: rest, hl, hname => by
    obtain ⟨hn, hrest⟩ := hl
    cases n with
    | property span key computed value =>
      obtain ⟨hvalue, -⟩ := hn
      cases key with
      | none => exact leadsTo_visitSections h phase t rest hrest hname
      | some key =>
        rw [referencesOfSections.eq_def] at hname
        rw [visitSections_property]
        refine leadsTo_append hname (fun hname => ?_) (extends_visitSections phase _ rest)
          (leadsTo_visitSections h phase _ rest hrest)
        split_ifs with hconstruct hdefer hgroup
        · rw [if_neg (by rw [hconstruct]; decide)] at hname
          exact leadsTo_visit h .construct { t with upcoming := some .construct } value hvalue hname
        · rw [if_neg (by rw [hdefer]; decide)] at hname
          exact leadsTo_visit h phase { t with upcoming := some .load } value hvalue hname
        · rw [if_pos hgroup] at hname
          have hplain := leadsTo_visit h phase t value hvalue
          cases value with
          | object _ entries => exact leadsTo_visitEntries h phase t entries hvalue hname
          | _ => exact hplain hname
        · rw [if_neg hgroup] at hname
          exact leadsTo_visit h phase t value hvalue hname
    | _ => exact leadsTo_visitSections h phase t rest hrest hname

theorem leadsTo_visitEntries (h : s.Resolves name classname) (phase : Phase) (t : Trace) :
    (l : List Node) → Node.AllUndotted l → name ∈ referencesOfEntries false l →
      (t.visitEntries phase l).LeadsTo s classname
  | [], _, hname => by simp [referencesOfEntries] at hname
  | n :: rest, hl, hname => by
    obtain ⟨hn, hrest⟩ := hl
    cases n with
    | property span key computed value =>
      rw [referencesOfEntries] at hname
      rw [visitEntries]
      exact leadsTo_append hname (leadsTo_visit h phase t value hn.1)
        (extends_visitEntries phase _ rest) (leadsTo_visitEntries h phase _ rest hrest)
    | _ => exact leadsTo_visitEntries h phase t rest hrest hname

end

end Trace

/-- Every class that a program refers to where collecting looks, itself or by a member, is among its
dependencies. -/
theorem references_needed (classname : String) {source : String} {program : Script.Program}
    (resolver : Resolver) (h : Script.Program.parse? source = some program) :
    ∃ analysis, ofSource? classname source resolver = some analysis ∧
      ∀ name ∈ referencesOfAll false program.statements, ∀ other ≠ classname,
        Text.rootOf name ∉ hostGlobals → ignores (Source.ofProgram source program) name = false →
        (resolver.symbol? name = some (.aClass other) ∨
          ∃ path, resolver.symbol? name = some (.member other path)) →
        analysis.dependsOn.contains other = true := by
  refine ⟨_, by rw [ofSource?, h]; rfl, ?_⟩
  intro name hname other hother hhost hignored hsymbol
  have hundotted := Node.allUndotted_iff.2 (Script.Program.undotted_of_parse? h)
  obtain ⟨m, hm, htarget⟩ := Trace.leadsTo_visitAll
    (s := settingOf classname (Source.ofProgram source program) resolver)
    ⟨hhost, hignored, hsymbol⟩ .load {} program.statements hundotted hname
  obtain ⟨needs, hget, -⟩ :=
    neededIn_of_mention (Source.ofProgram source program) resolver hm htarget hother
  exact Table.contains_iff.2 ⟨needs, hget⟩

/-! ## References in definitions -/

/-- A definition with a method that calls a method of another class. -/
def callingDefinition : String :=
  "qx.Class.define(\"a.A\",\x7bmembers:\x7bm()\x7bb.B.c();\x7d\x7d\x7d);"

/-- Definitions that refer to a class where collecting does not look: as or inside an argument that is
no object or not the second one, in a section without a name written out, in the computed name of a
section, and in a spread or the computed name of an entry. -/
def overlookedReferences : List String := [
  "qx.Class.define(\"a.A\",b.B);",
  "qx.Class.define(\"a.A\",(\x7bx:b.B\x7d));",
  "qx.Class.define(\"a.A\",\x7b\x7d,b.B);",
  "qx.Class.define(\"a.A\",\x7b...b.B\x7d);",
  "qx.Class.define(\"a.A\",\x7b1:b.B\x7d);",
  "qx.Class.define(\"a.A\",\x7b[b.B]:1\x7d);",
  "qx.Class.define(\"a.A\",\x7bmembers:\x7b...b.B\x7d\x7d);",
  "qx.Class.define(\"a.A\",\x7bstatics:\x7b[b.B]:1\x7d\x7d);"]

/-- Whether a source refers to a name, and whether it asks to ignore it. -/
def refersTo (everywhere : Bool) (name source : String) : Option (Bool × Bool) :=
  (Script.Program.parse? source).map fun program =>
    ((referencesOfAll everywhere program.statements).contains name,
      ignores (Source.ofProgram source program) name)

theorem references_needed_called : ∃ program analysis,
    Script.Program.parse? callingDefinition = some program ∧
    "b.B.c" ∈ referencesOfAll false program.statements ∧
    Text.rootOf "b.B.c" ∉ hostGlobals ∧
    ignores (Source.ofProgram callingDefinition program) "b.B.c" = false ∧
    oneClass.symbol? "b.B.c" = some (.member "b.B" "c") ∧
    ofSource? "a.A" callingDefinition oneClass = some analysis ∧
    analysis.dependsOn.contains "b.B" = true := by
  obtain ⟨hrefers, hhost, hsymbol⟩ : refersTo false "b.B.c" callingDefinition = some (true, false) ∧
      Text.rootOf "b.B.c" ∉ hostGlobals ∧
      oneClass.symbol? "b.B.c" = some (.member "b.B" "c") := by decide +kernel
  obtain ⟨program, hparse, hrefers⟩ := Option.map_eq_some_iff.1 hrefers
  obtain ⟨hname, hignored⟩ := Prod.mk.inj hrefers
  obtain ⟨analysis, hanalysis, hneeded⟩ := references_needed "a.A" oneClass hparse
  rw [List.contains_iff_mem] at hname
  exact ⟨program, analysis, hparse, hname, hhost, hignored, hsymbol, hanalysis,
    hneeded _ hname "b.B" (by decide) hhost hignored (.inr ⟨_, hsymbol⟩)⟩

/-- What a definition refers to elsewhere in its arguments is missed. -/
theorem references_overlooked : oneClass.symbol? "b.B" = some (.aClass "b.B") ∧
    Text.rootOf "b.B" ∉ hostGlobals ∧
    ∀ source ∈ overlookedReferences, refersTo true "b.B" source = some (true, false) ∧
      (ofSource? "a.A" source oneClass).map (·.dependsOn.contains "b.B") = some false := by
  decide +kernel

end Dependency

end ClassForge
