import ClassForge.Proofs.Definitions
import ClassForge.Proofs.Dependency.Mentions

/-!
# What a class is built on

The superclass, the mixins and the interfaces of a class are needed in the phase in which the call
that defines the class runs: while the file loads, or later if the call stands inside a function, or
what the section of another definition says that it stands in. The search for the first definition and
the collector of dependencies walk through the program side by side.
-/

namespace ClassForge

open Script (Node Span Source)

def Needs.has (n : Needs) : Phase → Bool
  | .load => n.load
  | .construct => n.construct
  | .runtime => n.runtime

theorem Needs.has_add (n : Needs) (phase phase' : Phase) :
    (n.add phase').has phase = (decide (phase = phase') || n.has phase) := by
  cases phase <;> cases phase' <;> rfl

namespace Dependency

open ClassRecord (Site search searchAll searchSections searchEntries foundations foundationKeys
  namesOf)

variable {name : String} {phase : Phase} {value : Node} {span : Span}

/-! ## What a program mentions -/

def Mention.Spells (name : String) : Mention → Prop
  | .dotted other _ => other = name
  | .bare other => other = name
  | .called .. => False

namespace Trace

def Extends (t t' : Trace) : Prop := t.mentions ⊆ t'.mentions

theorem Extends.refl (t : Trace) : t.Extends t := List.Subset.refl _

theorem Extends.trans {t t' t'' : Trace} (h : t.Extends t') (h' : t'.Extends t'') : t.Extends t'' :=
  List.Subset.trans h h'

theorem extends_add (phase : Phase) (t : Trace) (m : Mention) : t.Extends (t.add phase m) :=
  List.subset_append_left _ _

mutual

theorem extends_visit (phase : Phase) (t : Trace) : (n : Node) → t.Extends (t.visit phase n)
  | .call span callee args => by
    rw [visit]
    cases callee.dottedName? with
    | none => exact (extends_visit phase t callee).trans (extends_visitAll phase _ args)
    | some name =>
      dsimp only
      split
      · refine (extends_add phase t (.dotted name span)).trans ?_
        cases args with
        | nil => exact .refl _
        | cons text others =>
          cases others with
          | nil => exact .refl _
          | cons definition others =>
            cases definition with
            | object _ sections => exact extends_visitSections phase _ sections
            | _ => exact .refl _
      · exact (extends_add phase t _).trans
          ((extends_visit phase _ callee).trans (extends_visitAll phase _ args))
  | .member span o property => by
    rw [visit]
    cases o.dottedName? with
    | none => exact extends_visit phase t o
    | some base =>
      dsimp only
      split
      · exact extends_visit phase t o
      · exact extends_add phase t _
  | .name _ text => by
    rw [visit]
    exact extends_add phase t _
  | .func _ params body => by
    rw [visit]
    exact (extends_visitAll _ { t with upcoming := none } params).trans (extends_visitAll _ _ body)
  | .this .. | .string .. | .number .. | .boolean .. | .null .. | .hole .. => by
    simp only [visit]
    exact .refl t
  | .paren _ o | .spread _ o | .unary _ _ o => by
    simp only [visit]
    exact extends_visit phase t o
  | .index _ o parts | .new _ o parts => by
    simp only [visit]
    exact (extends_visit phase t o).trans (extends_visitAll phase _ parts)
  | .property _ _ computed value => by
    rw [visit]
    exact (extends_visitAll phase t computed).trans (extends_visit phase _ value)
  | .array _ parts | .object _ parts | .param _ _ parts | .rest _ parts | .sequence _ parts
  | .arrowHead _ parts | .compound _ parts => by
    simp only [visit]
    exact extends_visitAll phase t parts
  | .binary _ _ l r | .assign _ l r | .shorthandDefault _ l r => by
    simp only [visit]
    exact (extends_visit phase t l).trans (extends_visit phase _ r)

theorem extends_visitAll (phase : Phase) (t : Trace) :
    (l : List Node) → t.Extends (t.visitAll phase l)
  | [] => by
    rw [visitAll]
    exact .refl t
  | n :: rest => by
    rw [visitAll]
    exact (extends_visit phase t n).trans (extends_visitAll phase _ rest)

theorem extends_visitSections (phase : Phase) (t : Trace) :
    (l : List Node) → t.Extends (t.visitSections phase l)
  | [] => .refl t
  | n :: rest => by
    cases n with
    | property span key computed value =>
      cases key with
      | none => exact extends_visitSections phase t rest
      | some key =>
        rw [visitSections_property]
        refine Extends.trans ?_ (extends_visitSections phase _ rest)
        split_ifs
        · exact extends_visit .construct { t with upcoming := some .construct } value
        · exact extends_visit phase { t with upcoming := some .load } value
        · have hplain := extends_visit phase t value
          cases value with
          | object _ entries => exact extends_visitEntries phase t entries
          | _ => exact hplain
        · exact extends_visit phase t value
    | _ => exact extends_visitSections phase t rest

theorem extends_visitEntries (phase : Phase) (t : Trace) :
    (l : List Node) → t.Extends (t.visitEntries phase l)
  | [] => by
    rw [visitEntries]
    exact .refl t
  | n :: rest => by
    cases n with
    | property _ _ _ value =>
      rw [visitEntries]
      exact (extends_visit phase t value).trans (extends_visitEntries phase _ rest)
    | _ => exact extends_visitEntries phase t rest

end

/-! ## Names are mentioned where they stand -/

theorem exists_visit_of_mem (phase : Phase) {n : Node} {l : List Node} (h : n ∈ l) (t : Trace) :
    ∃ t', (visit phase t' n).mentions ⊆ (visitAll phase t l).mentions := by
  induction l generalizing t with
  | nil => cases h
  | cons first rest ih =>
    rw [visitAll]
    obtain rfl | h := List.mem_cons.1 h
    · exact ⟨t, extends_visitAll phase _ rest⟩
    · exact ih h _

theorem exists_visit_of_foundation (phase : Phase) {key : String} {computed : List Node}
    {sections : List Node} (h : .property span (some key) computed value ∈ sections)
    (hkey : key ∈ foundationKeys) (t : Trace) :
    ∃ t', (visit phase t' value).mentions ⊆ (visitSections phase t sections).mentions := by
  induction sections generalizing t with
  | nil => cases h
  | cons first rest ih =>
    obtain rfl | hrest := List.mem_cons.1 h
    · refine ⟨t, ?_⟩
      have hplain : ¬key = "construct" ∧ ¬key = "defer" ∧ ¬(key = "members" ∨ key = "statics") := by
        simp only [foundationKeys, List.mem_cons, List.not_mem_nil, or_false] at hkey
        obtain rfl | rfl | rfl := hkey <;> decide
      rw [visitSections_property, if_neg hplain.1, if_neg hplain.2.1, if_neg hplain.2.2]
      exact extends_visitSections phase _ rest
    · cases first with
      | property _ key =>
        cases key with
        | none => exact ih hrest t
        | some key =>
          rw [visitSections_property]
          exact ih hrest _
      | _ => exact ih hrest t

theorem rootOf_eq_this (h : Text.startsWith "this." name = true) : Text.rootOf name = "this" := by
  obtain ⟨rest, hrest⟩ := List.isPrefixOf_iff_prefix.1 h
  rw [Text.rootOf, ← hrest]
  rfl

theorem exists_mention_of_dottedName? (phase : Phase) (t : Trace)
    (hroot : Text.rootOf name ≠ "this") : (n : Node) → n.dottedName? = some name →
      ∃ m : Mention, m.Spells name ∧ (phase, m) ∈ (t.visit phase n).mentions
  | .name _ text, h => by
    rw [visit]
    exact ⟨.bare text, Option.some.inj h, by simp [add]⟩
  | .this _, h => absurd (by cases h; rfl) hroot
  | .member span o property, h => by
    obtain ⟨base, hbase, rfl⟩ := Option.map_eq_some_iff.1 h
    have hthis : ¬Text.startsWith "this." (base ++ "." ++ property) = true :=
      fun hstart => hroot (rootOf_eq_this hstart)
    rw [visit, hbase]
    dsimp only
    rw [if_neg hthis]
    exact ⟨.dotted _ span, rfl, by simp [add]⟩
  | .paren _ o, h => by
    rw [visit]
    exact exists_mention_of_dottedName? phase t hroot o h

theorem exists_mention_of_namesOf (t : Trace) (hroot : Text.rootOf name ≠ "this")
    (h : name ∈ namesOf value) :
    ∃ m : Mention, m.Spells name ∧ (phase, m) ∈ (t.visit phase value).mentions := by
  cases value with
  | array _ items =>
    obtain ⟨item, hitem, hname⟩ := List.mem_filterMap.1 h
    rw [visit]
    obtain ⟨t', hsub⟩ := exists_visit_of_mem phase (List.mem_of_mem_filter hitem) t
    obtain ⟨m, hspells, hm⟩ := exists_mention_of_dottedName? phase t' hroot item hname
    exact ⟨m, hspells, hsub hm⟩
  | _ => exact exists_mention_of_dottedName? phase t hroot _ (Option.mem_toList.1 h)

/-! ## Definitions are reached where they stand -/

/-- What the collector knows after a part of a program that is searched with this result: up to the
first definition the same functions lie ahead of both. -/
def Passed (t : Trace) : Except Site (Option Phase) → Prop
  | .ok upcoming => t.upcoming = upcoming
  | .error site => ∀ phase, site.phase? = some phase → ∀ name ∈ foundations site.args,
    Text.rootOf name ≠ "this" → ∃ m : Mention, m.Spells name ∧ (phase, m) ∈ t.mentions

theorem Passed.bind {t t' : Trace} {result : Except Site (Option Phase)}
    {further : Option Phase → Except Site (Option Phase)} (h : Passed t result) (ht : t.Extends t')
    (hfurther : Passed t' (further t.upcoming)) : Passed t' (result >>= further) := by
  cases result with
  | ok upcoming =>
    cases h
    exact hfurther
  | error site =>
    intro phase hphase name hname hroot
    obtain ⟨m, hspells, hm⟩ := h phase hphase name hname hroot
    exact ⟨m, hspells, ht hm⟩

theorem Passed.map_none {t : Trace} {result : Except Site (Option Phase)} (h : Passed t result) :
    Passed { t with upcoming := none } (result.map fun _ => none) := by
  cases result with
  | ok upcoming => rfl
  | error site => exact h

theorem searchAll_append (phase? upcoming : Option Phase) (a b : List Node) :
    searchAll phase? upcoming (a ++ b) =
      searchAll phase? upcoming a >>= fun upcoming => searchAll phase? upcoming b := by
  induction a generalizing upcoming with
  | nil => rfl
  | cons n a ih => simp only [List.cons_append, searchAll, ih, bind_assoc]

theorem search_none_eq_searchAll_parts (upcoming : Option Phase) {n : Node}
    (hn : ∀ span callee args, n = .call span callee args → ClassRecord.definition? callee = none) :
    search none upcoming n = searchAll none upcoming n.parts := by
  have hlast (result : Except Site (Option Phase)) : (result >>= fun upcoming => .ok upcoming) = result := by
    cases result <;> rfl
  cases n with
  | call span callee args => simp [search, hn _ _ _ rfl, Node.parts, searchAll]
  | _ => simp [search, Node.parts, searchAll, searchAll_append, hlast]

theorem passed_all_of_passed {t : Trace} {l : List Node}
    (h : ∀ n ∈ l, Passed t (search none t.upcoming n)) : Passed t (searchAll none t.upcoming l) := by
  induction l with
  | nil => rfl
  | cons n l ih =>
    rw [searchAll]
    exact (h n List.mem_cons_self).bind (.refl t) (ih fun m hm => h m (List.mem_cons_of_mem _ hm))

theorem passed_overlooked (t : Trace) (n : Node) : Passed t (search none t.upcoming n) := by
  induction n using Node.induction_parts with
  | step n ih =>
    by_cases hn : ∀ span callee args, n = .call span callee args → ClassRecord.definition? callee = none
    · rw [search_none_eq_searchAll_parts t.upcoming hn]
      exact passed_all_of_passed ih
    · push Not at hn
      obtain ⟨span, callee, args, rfl, hsome⟩ := hn
      obtain ⟨classType, hdefines⟩ := Option.ne_none_iff_exists'.1 hsome
      rw [search, hdefines]
      intro phase hphase
      cases hphase

theorem passed_all_overlooked (t : Trace) (l : List Node) : Passed t (searchAll none t.upcoming l) :=
  passed_all_of_passed fun n _ => passed_overlooked t n

theorem mem_of_mem_namedProperties {key : String} {properties : List Node}
    (h : (span, key, value) ∈ ClassRecord.namedProperties properties) :
    ∃ span computed, .property span (some key) computed value ∈ properties := by
  obtain ⟨n, hn, heq⟩ := List.mem_filterMap.1 h
  split at heq
  · cases heq
    exact ⟨_, _, hn⟩
  · cases heq

theorem isDefinition_of_definedType? {callee text : String} {classType : ClassType}
    {more : List Node} (h : ClassRecord.definedType? callee = some classType) :
    Harvest.isDefinition callee (.string span text :: more) = true := by
  rw [ClassRecord.definedType?] at h
  rw [Harvest.isDefinition]
  split_ifs at h with hclass hmixin hinterface htheme
  · obtain rfl | rfl := hclass <;> decide
  · cases hmixin
    decide
  · cases hinterface
    decide
  · cases htheme
    decide

theorem passed_definition (phase : Phase) (t : Trace) (span : Span) {callee : Node} (args : List Node)
    {classType : ClassType} (h : ClassRecord.definition? callee = some classType) :
    Passed (t.visit phase (.call span callee args)) (.error ⟨classType, span, args, some phase⟩) := by
  intro phase' hphase name hname hroot
  cases hphase
  obtain ⟨callee', hcallee, htype⟩ := Option.bind_eq_some_iff.1 h
  unfold foundations at hname
  dsimp only at hname
  split at hname
  · next sections _ =>
    obtain ⟨⟨_, key, value⟩, hmem, hvalue⟩ := List.mem_flatMap.1 hname
    obtain ⟨propertySpan, computed, hproperty⟩ := mem_of_mem_namedProperties hmem
    dsimp only at hvalue
    split at hvalue
    · next hkey =>
      rw [visit, hcallee]
      dsimp only
      rw [if_pos (isDefinition_of_definedType? htype)]
      obtain ⟨t', hsub⟩ := exists_visit_of_foundation phase hproperty hkey
        (t.add phase (.dotted callee' span))
      obtain ⟨m, hspells, hm⟩ := exists_mention_of_namesOf t' hroot hvalue
      exact ⟨m, hspells, hsub hm⟩
    · cases hvalue
  · cases hname

mutual

theorem passed_visit (phase : Phase) (t : Trace) : (n : Node) →
    Passed (t.visit phase n) (search (some phase) t.upcoming n)
  | .call span callee args => by
    cases hdefinition : ClassRecord.definition? callee with
    | some classType =>
      rw [search, hdefinition]
      exact passed_definition phase t span args hdefinition
    | none =>
      rw [visit, search, hdefinition]
      dsimp only
      cases hcallee : callee.dottedName? with
      | none =>
        have hdefines : ClassRecord.defines callee args = false := by
          rw [ClassRecord.defines, hcallee]
          rfl
        rw [hdefines]
        exact (passed_visit phase t callee).bind (extends_visitAll phase _ args)
          (passed_visitAll phase _ args)
      | some name =>
        have hdefines : ClassRecord.defines callee args = Harvest.isDefinition name args := by
          rw [ClassRecord.defines, hcallee]
          rfl
        have hdotted (upcoming : Option Phase) : search (some phase) upcoming callee = .ok upcoming :=
          ClassRecord.search_of_dottedName? _ _ callee (by rw [hcallee]; rfl)
        rw [hdefines, hdotted]
        dsimp only
        split
        · -- of another definition the collector visits the sections, and nothing else
          have hother := passed_all_overlooked (t.add phase (.dotted name span)) args
          rcases args with _ | ⟨text, _ | ⟨definition, more⟩⟩
          · exact hother
          · exact hother
          cases definition with
          | object _ sections =>
            exact (passed_overlooked (t.add phase (.dotted name span)) text).bind
              (extends_visitSections phase _ sections)
              ((passed_visitSections phase _ sections).bind (.refl _) (passed_all_overlooked _ more))
          | _ => exact hother
        · have hfirst := passed_visit phase (t.add phase (.called name args)) callee
          rw [hdotted] at hfirst
          exact hfirst.bind (extends_visitAll phase _ args) (passed_visitAll phase _ args)
  | .member span o property => by
    rw [search]
    cases ho : o.dottedName? with
    | none =>
      rw [visit, ho]
      exact passed_visit phase t o
    | some base =>
      rw [ClassRecord.search_of_dottedName? _ _ o (by rw [ho]; rfl), visit, ho]
      dsimp only
      split
      · have hinner := passed_visit phase t o
        rw [ClassRecord.search_of_dottedName? _ _ o (by rw [ho]; rfl)] at hinner
        exact hinner
      · rfl
  | .name span text => by
    rw [visit, search]
    rfl
  | .func _ params body => by
    rw [visit, search]
    exact (passed_visitAll _ { t with upcoming := none } params).bind (extends_visitAll _ _ body)
      (passed_visitAll _ _ body)
  | .this .. | .string .. | .number .. | .boolean .. | .null .. | .hole .. => by
    simp only [visit, search]
    rfl
  | .paren _ o | .spread _ o | .unary _ _ o => by
    simp only [visit, search]
    exact passed_visit phase t o
  | .index _ o parts | .new _ o parts => by
    simp only [visit, search]
    exact (passed_visit phase t o).bind (extends_visitAll phase _ parts) (passed_visitAll phase _ parts)
  | .property _ _ computed value => by
    rw [visit, search]
    exact (passed_visitAll phase t computed).bind (extends_visit phase _ value)
      (passed_visit phase _ value)
  | .array _ parts | .object _ parts | .param _ _ parts | .rest _ parts | .sequence _ parts
  | .arrowHead _ parts | .compound _ parts => by
    simp only [visit, search]
    exact passed_visitAll phase t parts
  | .binary _ _ l r | .assign _ l r | .shorthandDefault _ l r => by
    simp only [visit, search]
    exact (passed_visit phase t l).bind (extends_visit phase _ r) (passed_visit phase _ r)

theorem passed_visitAll (phase : Phase) (t : Trace) : (l : List Node) →
    Passed (t.visitAll phase l) (searchAll (some phase) t.upcoming l)
  | [] => by
    rw [visitAll, searchAll]
    rfl
  | n :: rest => by
    rw [visitAll, searchAll]
    exact (passed_visit phase t n).bind (extends_visitAll phase _ rest) (passed_visitAll phase _ rest)

theorem passed_visitSections (phase : Phase) (t : Trace) : (l : List Node) →
    Passed (t.visitSections phase l) (searchSections phase t.upcoming l)
  | [] => rfl
  | n :: rest => by
    have hother : Passed (t.visitSections phase rest)
        (search none t.upcoming n >>= fun upcoming => searchSections phase upcoming rest) :=
      (passed_overlooked t n).bind (extends_visitSections phase t rest)
        (passed_visitSections phase t rest)
    cases n with
    | property span key computed value =>
      cases key with
      | none => exact hother
      | some key =>
        have hextends := extends_visitSections phase t (.property span (some key) computed value :: rest)
        rw [visitSections_property] at hextends ⊢
        rw [ClassRecord.searchSections_property]
        refine (passed_all_overlooked t computed).bind hextends ?_
        refine Passed.bind ?_ (extends_visitSections phase _ rest) (passed_visitSections phase _ rest)
        split_ifs
        · exact (passed_visit .construct { t with upcoming := some .construct } value).map_none
        · exact (passed_visit phase { t with upcoming := some .load } value).map_none
        · have hplain := passed_visit phase t value
          cases value with
          | object _ entries => exact passed_visitEntries phase t entries
          | _ => exact hplain
        · exact passed_visit phase t value
    | _ => exact hother

theorem passed_visitEntries (phase : Phase) (t : Trace) : (l : List Node) →
    Passed (t.visitEntries phase l) (searchEntries phase t.upcoming l)
  | [] => by
    rw [visitEntries, searchEntries]
    rfl
  | n :: rest => by
    have hother : Passed (t.visitEntries phase rest)
        (search none t.upcoming n >>= fun upcoming => searchEntries phase upcoming rest) :=
      (passed_overlooked t n).bind (extends_visitEntries phase t rest) (passed_visitEntries phase t rest)
    cases n with
    | property _ _ computed value =>
      rw [visitEntries, searchEntries]
      refine (passed_all_overlooked t computed).bind
        ((extends_visit phase t value).trans (extends_visitEntries phase _ rest)) ?_
      exact (passed_visit phase t value).bind (extends_visitEntries phase _ rest)
        (passed_visitEntries phase _ rest)
    | _ => exact hother

end

end Trace

/-! ## From mentions to dependencies -/

def NeededIn (d : Table Needs) (name : String) (phase : Phase) : Prop :=
  ∃ needs, d.get? name = some needs ∧ needs.has phase = true

theorem neededIn_need (classname : String) (d : Table Needs) (phase : Phase) (h : name ≠ classname) :
    NeededIn (need classname d phase (some name)) name phase := by
  rw [need, if_neg h]
  exact ⟨_, Table.get?_insert_self _ _ _, by rw [Needs.has_add, decide_eq_true rfl, Bool.true_or]⟩

theorem NeededIn.need {d : Table Needs} (h : NeededIn d name phase) (classname : String)
    (phase' : Phase) (other : Option String) :
    NeededIn (need classname d phase' other) name phase := by
  obtain ⟨needs, hget, hhas⟩ := h
  cases other with
  | none => exact ⟨needs, hget, hhas⟩
  | some other =>
    rw [Dependency.need]
    split_ifs
    · exact ⟨needs, hget, hhas⟩
    · by_cases hother : name = other
      · subst hother
        refine ⟨_, Table.get?_insert_self _ _ _, ?_⟩
        rw [Needs.has_add, Table.getD, hget, Option.getD_some, hhas, Bool.or_true]
      · exact ⟨needs, by rw [Table.get?_insert, if_neg hother, hget], hhas⟩

theorem neededIn_foldl {α : Type} {classname name : String} (phaseOf : α → Phase)
    (target : α → Option String) {l : List α} {d : Table Needs}
    (h : NeededIn d name phase ∨ ∃ a ∈ l, phaseOf a = phase ∧ target a = some name ∧ name ≠ classname) :
    NeededIn (l.foldl (fun d a => need classname d (phaseOf a) (target a)) d) name phase := by
  induction l generalizing d with
  | nil =>
    obtain h | ⟨a, ha, -⟩ := h
    · exact h
    · cases ha
  | cons b l ih =>
    rw [List.foldl_cons]
    refine ih ?_
    obtain h | ⟨a, ha, hphase, htarget, hne⟩ := h
    · exact .inl (h.need classname _ _)
    · obtain rfl | ha := List.mem_cons.1 ha
      · rw [hphase, htarget]
        exact .inl (neededIn_need classname d phase hne)
      · exact .inr ⟨a, ha, hphase, htarget, hne⟩

theorem neededIn_of_mention {classname name : String} (src : Source) {statements : List Node}
    (resolver : Resolver) {m : Mention} (hm : (phase, m) ∈ mentions statements)
    (htarget : (settingOf classname src resolver).target? m = some name) (hne : name ≠ classname) :
    NeededIn (ofProgram classname src statements resolver).dependsOn name phase := by
  rw [ofProgram_dependsOn]
  refine neededIn_foldl (fun _ => .runtime) some (.inl ?_)
  refine neededIn_foldl (fun _ => .load) some (.inl ?_)
  exact neededIn_foldl Prod.fst (fun m => (settingOf classname src resolver).target? m.2)
    (.inr ⟨(phase, m), hm, rfl, htarget, hne⟩)

theorem target?_of_spells {s : Setting} {m : Mention} (hspells : m.Spells name)
    (hknown : (s.resolver.record? name).isSome = true) (hhost : Text.rootOf name ∉ hostGlobals)
    (hignored : s.isIgnored name = false) : s.target? m = some name := by
  cases m with
  | dotted other span =>
    cases hspells
    have hsymbol : s.resolver.symbol? name = some (.aClass name) := if_pos hknown
    have hkept : ¬(hostGlobals.contains (Text.rootOf name) || s.isIgnored name) = true := by
      simp [hhost, hignored]
    rw [Setting.target?, if_neg hkept, hsymbol]
    rfl
  | bare other =>
    cases hspells
    rw [Setting.target?, if_pos hknown]
  | called callee args => cases hspells

def ignores (src : Source) (name : String) : Bool :=
  (directives src.allDocs "ignore").any (matchesIgnored name)

/-- The class `b.B` is known, and nothing else. -/
def oneClass : Resolver where
  record? name := if name = "b.B" then some (ClassRecord.new "b.B" .ordinary) else none
  isPackage _ := false
  checks := .empty

/-- A definition in the constructor of another one. -/
def innerDefinition : String :=
  "qx.data.define(\"d\",\x7bconstruct()\x7bqx.Class.define(\"a.A\",\x7bextend:b.B\x7d);\x7d\x7d);"

def wrappedDefinition : String :=
  "(function()\x7bqx.Class.define(\"a.A\",\x7bextend:b.B\x7d);\x7d)();"

/-- A definition that is an argument of another one. -/
def argumentDefinition : String :=
  "qx.data.define(\"d\",qx.Class.define(\"a.A\",\x7bextend:b.B\x7d));"

def builtOn (source : String) : Option (String × List String) :=
  (ClassRecord.ofSource source "A.js" none).toOption.map fun x =>
    (x.record.classname, x.record.hierarchyRefs)

/-- The phase in which the first definition of a source runs. -/
def runsIn (source : String) : Option (Option Phase) := do
  let program ← Script.Program.parse? source
  let site ← ClassRecord.firstDefinition? program.statements
  return site.phase?

/-- Whether a source asks to ignore the class `b.B`. -/
def ignoresOther (source : String) : Option Bool :=
  (Script.Program.parse? source).map fun program =>
    ignores (Source.ofProgram source program) "b.B"

-- in a section of another definition, in the first function of its constructor, in the second one, and
-- in the computed name of an entry
example : [("qx.data.define('d',\x7bx:", "\x7d)"), ("qx.data.define('d',\x7bconstruct:[()=>", "]\x7d)"),
    ("qx.data.define('d',\x7bconstruct:[()=>1,()=>", "]\x7d)"),
    ("qx.data.define('d',\x7bmembers:\x7b[", "]:1\x7d\x7d)")].map
      (fun around => runsIn (around.1 ++ "qx.Class.define('a.A')" ++ around.2)) =
    [some (some .load), some (some .construct), some (some .runtime), some none] := by
  decide +kernel

end Dependency

end ClassForge
