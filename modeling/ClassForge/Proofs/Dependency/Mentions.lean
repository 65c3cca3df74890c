import ClassForge.Proofs.Json.Records
import Mathlib.Data.List.Basic

/-!
# What a program mentions

Collecting dependencies goes in two steps: which names a program mentions, each in the phase in which
its code runs, does not depend on what names resolve to; what is collected is then a fold over these
mentions. So two resolvers that lead every mention to the same class give the same dependencies.
-/

namespace ClassForge.Dependency

open Script (Node Span Source)

variable {a b : Resolver}

/-- A place of a program that may refer to another class. -/
inductive Mention where
  | dotted (name : String) (span : Span)
  | bare (name : String)
  | called (callee : String) (args : List Node)

/-- The mentions so far, in the order of the program, each with the phase in which its code runs, and
the phase of the next function, if it is not that of functions in general. -/
structure Trace where
  upcoming : Option Phase := none
  mentions : List (Phase × Mention) := []

namespace Trace

def add (phase : Phase) (t : Trace) (m : Mention) : Trace :=
  { t with mentions := t.mentions ++ [(phase, m)] }

mutual

def visit (phase : Phase) (t : Trace) : Node → Trace
  | .call span callee args =>
    match callee.dottedName? with
    | some name =>
      if Harvest.isDefinition name args then
        let t := t.add phase (.dotted name span)
        match args with
        | _ :: .object _ sections :: _ => visitSections phase t sections
        | _ => t
      else visitAll phase (visit phase (t.add phase (.called name args)) callee) args
    | none => visitAll phase (visit phase t callee) args
  | .member span o property =>
    match o.dottedName? with
    | some base =>
      let name := base ++ "." ++ property
      if Text.startsWith "this." name then visit phase t o else t.add phase (.dotted name span)
    | none => visit phase t o
  | .name _ text => t.add phase (.bare text)
  | .func _ params body =>
    let inner := t.upcoming.getD .runtime
    let t := { t with upcoming := none }
    visitAll inner (visitAll inner t params) body
  | .this .. | .string .. | .number .. | .boolean .. | .null .. | .hole .. => t
  | .paren _ o | .spread _ o | .unary _ _ o => visit phase t o
  | .index _ o parts | .new _ o parts => visitAll phase (visit phase t o) parts
  | .property _ _ computed value => visit phase (visitAll phase t computed) value
  | .array _ parts | .object _ parts | .param _ _ parts | .rest _ parts | .sequence _ parts
  | .arrowHead _ parts | .compound _ parts => visitAll phase t parts
  | .binary _ _ l r | .assign _ l r | .shorthandDefault _ l r => visit phase (visit phase t l) r

/-- The mentions of parts of a program, one after another. -/
def visitAll (phase : Phase) (t : Trace) : List Node → Trace
  | [] => t
  | n :: rest => visitAll phase (visit phase t n) rest

def visitSections (phase : Phase) (t : Trace) : List Node → Trace
  | [] => t
  | .property _ (some key) _ value :: rest =>
    let t :=
      if key = "construct" then
        { visit .construct { t with upcoming := some .construct } value with upcoming := none }
      else if key = "defer" then
        { visit phase { t with upcoming := some .load } value with upcoming := none }
      else if key = "members" ∨ key = "statics" then
        match value with
        | .object _ entries => visitEntries phase t entries
        | other => visit phase t other
      else visit phase t value
    visitSections phase t rest
  | _ :: rest => visitSections phase t rest

def visitEntries (phase : Phase) (t : Trace) : List Node → Trace
  | [] => t
  | .property _ _ _ value :: rest => visitEntries phase (visit phase t value) rest
  | _ :: rest => visitEntries phase t rest

end

-- the parts of a value are out of sight until it is known what the value is
theorem visitSections_property (phase : Phase) (t : Trace) (span : Span) (key : String)
    (computed : List Node) (value : Node) (rest : List Node) :
    visitSections phase t (.property span (some key) computed value :: rest) =
      visitSections phase
        (if key = "construct" then
          { visit .construct { t with upcoming := some .construct } value with upcoming := none }
        else if key = "defer" then
          { visit phase { t with upcoming := some .load } value with upcoming := none }
        else if key = "members" ∨ key = "statics" then
          match value with
          | .object _ entries => visitEntries phase t entries
          | other => visit phase t other
        else visit phase t value) rest := by
  cases value <;> rfl

end Trace

namespace Harvest

theorem visitSections_property (s : Setting) (phase : Phase) (h : Harvest) (span : Span) (key : String)
    (computed : List Node) (value : Node) (rest : List Node) :
    visitSections s phase h (.property span (some key) computed value :: rest) =
      visitSections s phase
        (if key = "construct" then
          { visit s .construct { h with upcoming := some .construct } value with upcoming := none }
        else if key = "defer" then
          { visit s phase { h with upcoming := some .load } value with upcoming := none }
        else if key = "members" ∨ key = "statics" then
          match value with
          | .object _ entries => visitEntries s phase h entries
          | other => visit s phase h other
        else visit s phase h value) rest := by
  cases value <;> rfl

def take (s : Setting) (h : Harvest) (m : Phase × Mention) : Harvest :=
  match m.2 with
  | .dotted name span => h.reference s m.1 name span
  | .bare name => h.identifier s m.1 name
  | .called callee args => h.calling s m.1 callee args

def ofTrace (s : Setting) (t : Trace) : Harvest :=
  { t.mentions.foldl (take s) {} with upcoming := t.upcoming }

/-! ## Collecting is taking mentions into account -/

variable (s : Setting)

theorem addDependency_upcoming (h : Harvest) (u : Option Phase) (classname : String)
    (phase : Phase) : addDependency s { h with upcoming := u } classname phase =
      { addDependency s h classname phase with upcoming := u } := by
  unfold addDependency
  split <;> rfl

theorem report_upcoming (h : Harvest) (u : Option Phase) (key : String) (m : Marker) :
    report { h with upcoming := u } key m = { report h key m with upcoming := u } := by
  unfold report
  split <;> rfl

theorem checkDeprecated_upcoming (h : Harvest) (u : Option Phase) (classname : String)
    (span : Span) : checkDeprecated s { h with upcoming := u } classname span =
      { checkDeprecated s h classname span with upcoming := u } := by
  unfold checkDeprecated
  split
  · exact report_upcoming h u _ _
  · rfl

theorem take_upcoming (h : Harvest) (u : Option Phase) (m : Phase × Mention) :
    take s { h with upcoming := u } m = { take s h m with upcoming := u } := by
  obtain ⟨phase, m⟩ := m
  cases m with
  | dotted name span =>
    simp only [take, reference]
    split
    · rfl
    · split
      · rw [checkDeprecated_upcoming, addDependency_upcoming]
      · rw [checkDeprecated_upcoming, addDependency_upcoming]
      · rw [addDependency_upcoming]
      · rfl
      · split
        · rw [report_upcoming]
        · rfl
  | bare name =>
    simp only [take, identifier]
    split
    · rw [addDependency_upcoming]
    · rfl
  | called callee args =>
    simp only [take, calling]
    generalize List.foldl NameSet.add h.translations _ = translations
    split
    · split
      · split
        · unfold addDependency
          split <;> rfl
        · rfl
      · rfl
    · rfl

theorem ofTrace_upcoming (t : Trace) (u : Option Phase) :
    { ofTrace s t with upcoming := u } = ofTrace s { t with upcoming := u } := rfl

theorem take_ofTrace (t : Trace) (phase : Phase) (m : Mention) :
    take s (ofTrace s t) (phase, m) = ofTrace s (t.add phase m) := by
  simp only [ofTrace, Trace.add, List.foldl_append, List.foldl_cons, List.foldl_nil, take_upcoming]

mutual

theorem visit_ofTrace (s : Setting) (phase : Phase) (t : Trace) :
    (n : Node) → visit s phase (ofTrace s t) n = ofTrace s (t.visit phase n)
  | .call span callee args => by
    rw [visit, Trace.visit]
    cases callee.dottedName? with
    | none =>
      simp only
      rw [visit_ofTrace s phase t callee, visitAll_ofTrace s phase _ args]
    | some name =>
      simp only
      by_cases hdef : isDefinition name args = true
      · have hfirst : (ofTrace s t).reference s phase name span =
            ofTrace s (t.add phase (.dotted name span)) := take_ofTrace s t phase (.dotted name span)
        rw [if_pos hdef, if_pos hdef, hfirst]
        cases args with
        | nil => rfl
        | cons name others =>
          cases others with
          | nil => rfl
          | cons definition others =>
            cases definition with
            | object _ sections => exact visitSections_ofTrace s phase _ sections
            | _ => rfl
      · have hfirst : (ofTrace s t).calling s phase name args =
            ofTrace s (t.add phase (.called name args)) := take_ofTrace s t phase (.called name args)
        rw [if_neg hdef, if_neg hdef, hfirst, visit_ofTrace s phase _ callee,
          visitAll_ofTrace s phase _ args]
  | .member span o property => by
    rw [visit, Trace.visit]
    cases o.dottedName? with
    | none => exact visit_ofTrace s phase t o
    | some base =>
      simp only
      by_cases hthis : Text.startsWith "this." (base ++ "." ++ property) = true
      · rw [if_pos hthis, if_pos hthis, visit_ofTrace s phase t o]
      · rw [if_neg hthis, if_neg hthis]
        exact take_ofTrace s t phase (.dotted (base ++ "." ++ property) span)
  | .name _ text => by
    rw [visit, Trace.visit]
    exact take_ofTrace s t phase (.bare text)
  | .func _ params body => by
    rw [visit, Trace.visit]
    rw [ofTrace_upcoming s t none, visitAll_ofTrace s _ _ params, visitAll_ofTrace s _ _ body]
    rfl
  | .this .. | .string .. | .number .. | .boolean .. | .null .. | .hole .. => by
    simp only [visit, Trace.visit]
  | .paren _ o | .spread _ o | .unary _ _ o => by
    simp only [visit, Trace.visit, visit_ofTrace s phase t o]
  | .index _ o parts | .new _ o parts => by
    simp only [visit, Trace.visit, visit_ofTrace s phase t o, visitAll_ofTrace s phase _ parts]
  | .property _ _ computed value => by
    rw [visit, Trace.visit, visitAll_ofTrace s phase t computed, visit_ofTrace s phase _ value]
  | .array _ parts | .object _ parts | .param _ _ parts | .rest _ parts | .sequence _ parts
  | .arrowHead _ parts | .compound _ parts => by
    simp only [visit, Trace.visit, visitAll_ofTrace s phase t parts]
  | .binary _ _ l r | .assign _ l r | .shorthandDefault _ l r => by
    simp only [visit, Trace.visit, visit_ofTrace s phase t l, visit_ofTrace s phase _ r]

theorem visitAll_ofTrace (s : Setting) (phase : Phase) (t : Trace) :
    (l : List Node) → visitAll s phase (ofTrace s t) l = ofTrace s (t.visitAll phase l)
  | [] => by rw [visitAll, Trace.visitAll]
  | n :: rest => by
    rw [visitAll, Trace.visitAll, visit_ofTrace s phase t n, visitAll_ofTrace s phase _ rest]

theorem visitSections_ofTrace (s : Setting) (phase : Phase) (t : Trace) :
    (l : List Node) → visitSections s phase (ofTrace s t) l = ofTrace s (t.visitSections phase l)
  | [] => rfl
  | n :: rest => by
    cases n with
    | property _ key _ value =>
      cases key with
      | none => exact visitSections_ofTrace s phase t rest
      | some key =>
        rw [visitSections_property, Trace.visitSections_property]
        by_cases hconstruct : key = "construct"
        · simp only [if_pos hconstruct]
          rw [ofTrace_upcoming, visit_ofTrace s .construct _ value, ofTrace_upcoming,
            visitSections_ofTrace s phase _ rest]
        · simp only [if_neg hconstruct]
          by_cases hdefer : key = "defer"
          · simp only [if_pos hdefer]
            rw [ofTrace_upcoming, visit_ofTrace s phase _ value, ofTrace_upcoming,
              visitSections_ofTrace s phase _ rest]
          · simp only [if_neg hdefer]
            by_cases hgroup : key = "members" ∨ key = "statics"
            · simp only [if_pos hgroup]
              have hvalue := visit_ofTrace s phase t value
              cases value with
              | object _ entries =>
                simp only [visitEntries_ofTrace s phase t entries]
                exact visitSections_ofTrace s phase _ rest
              | _ =>
                simp only [hvalue]
                exact visitSections_ofTrace s phase _ rest
            · simp only [if_neg hgroup]
              rw [visit_ofTrace s phase t value, visitSections_ofTrace s phase _ rest]
    | _ => exact visitSections_ofTrace s phase t rest

theorem visitEntries_ofTrace (s : Setting) (phase : Phase) (t : Trace) :
    (l : List Node) → visitEntries s phase (ofTrace s t) l = ofTrace s (t.visitEntries phase l)
  | [] => by rw [visitEntries, Trace.visitEntries]
  | n :: rest => by
    cases n with
    | property _ _ _ value =>
      rw [visitEntries, Trace.visitEntries, visit_ofTrace s phase t value,
        visitEntries_ofTrace s phase _ rest]
    | _ => exact visitEntries_ofTrace s phase t rest

end

end Harvest

/-! ## The class that a mention leads to -/

/-- The class that code using a symbol needs. -/
def classOf? : Option Symbol → Option String
  | some (.aClass classname) | some (.member classname _) | some (.setting _ classname) =>
    some classname
  | _ => none

def checkedBy? : Option Symbol → Option String
  | some (.setting _ classname) => some classname
  | _ => none

def askedKey? (callee : String) : List Node → Option String
  | .string _ key :: _ => if Harvest.environmentMethods.contains callee then some key else none
  | _ => none

def Setting.target? (s : Setting) : Mention → Option String
  | .dotted name _ =>
    if hostGlobals.contains (Text.rootOf name) || s.isIgnored name then none
    else classOf? (s.resolver.symbol? name)
  | .bare name => if (s.resolver.record? name).isSome then some name else none
  | .called callee args => (askedKey? callee args).bind fun key => checkedBy? (s.resolver.symbol? key)

def need (classname : String) (d : Table Needs) (phase : Phase) : Option String → Table Needs
  | none => d
  | some other => if other = classname then d else d.insert other ((d.getD other {}).add phase)

namespace Harvest

variable (s : Setting)

theorem addDependency_dependsOn (h : Harvest) (classname : String) (phase : Phase) :
    (addDependency s h classname phase).dependsOn =
      need s.classname h.dependsOn phase (some classname) := by
  simp only [addDependency, need]
  split <;> rfl

theorem report_dependsOn (h : Harvest) (key : String) (m : Marker) :
    (report h key m).dependsOn = h.dependsOn := by
  unfold report
  split <;> rfl

theorem checkDeprecated_dependsOn (h : Harvest) (classname : String) (span : Span) :
    (checkDeprecated s h classname span).dependsOn = h.dependsOn := by
  unfold checkDeprecated
  split
  · exact report_dependsOn h _ _
  · rfl

theorem reference_dependsOn (phase : Phase) (h : Harvest) (name : String) (span : Span) :
    (reference s phase h name span).dependsOn =
      need s.classname h.dependsOn phase (s.target? (.dotted name span)) := by
  simp only [reference, Setting.target?]
  split
  · rfl
  · cases s.resolver.symbol? name with
    | none =>
      simp only
      split
      · exact report_dependsOn h _ _
      · rfl
    | some symbol =>
      cases symbol with
      | aClass classname | member classname path =>
        refine (addDependency_dependsOn s _ _ _).trans ?_
        rw [checkDeprecated_dependsOn]
        rfl
      | setting key classname => exact addDependency_dependsOn s _ _ _
      | package name => rfl

theorem calling_dependsOn (phase : Phase) (h : Harvest) (callee : String) (args : List Node) :
    (calling s phase h callee args).dependsOn =
      need s.classname h.dependsOn phase (s.target? (.called callee args)) := by
  simp only [calling, Setting.target?]
  split
  · next henv =>
    split
    · next key _ =>
      simp only [askedKey?, henv, ↓reduceIte, Option.bind_some]
      cases s.resolver.symbol? key with
      | none => rfl
      | some symbol =>
        cases symbol with
        | setting _ classname => exact addDependency_dependsOn s _ _ _
        | aClass _ => rfl
        | member _ _ => rfl
        | package _ => rfl
    · next hne =>
      have hkey : askedKey? callee args = none := by
        unfold askedKey?
        split
        · exact absurd rfl (hne _ _ _)
        · rfl
      rw [hkey]
      rfl
  · next henv =>
    have hkey : askedKey? callee args = none := by
      unfold askedKey?
      split
      · exact if_neg henv
      · rfl
    rw [hkey]
    rfl

theorem take_dependsOn (h : Harvest) (m : Phase × Mention) :
    (take s h m).dependsOn = need s.classname h.dependsOn m.1 (s.target? m.2) := by
  obtain ⟨phase, m⟩ := m
  cases m with
  | dotted name span => exact reference_dependsOn s phase h name span
  | bare name =>
    simp only [take, identifier, Setting.target?]
    split
    · exact addDependency_dependsOn s h name phase
    · rfl
  | called callee args => exact calling_dependsOn s phase h callee args

theorem ofTrace_dependsOn (t : Trace) : (ofTrace s t).dependsOn =
    t.mentions.foldl (fun d m => need s.classname d m.1 (s.target? m.2)) .empty := by
  have hfold (l : List (Phase × Mention)) (h : Harvest) : (l.foldl (take s) h).dependsOn =
      l.foldl (fun d m => need s.classname d m.1 (s.target? m.2)) h.dependsOn := by
    induction l generalizing h with
    | nil => rfl
    | cons m l ih => rw [List.foldl_cons, List.foldl_cons, ih, take_dependsOn]
  exact hfold t.mentions {}

theorem foldl_addDependency_dependsOn (phase : Phase) (names : List String) (h : Harvest) :
    (names.foldl (fun h name => h.addDependency s name phase) h).dependsOn =
      names.foldl (fun d name => need s.classname d phase (some name)) h.dependsOn := by
  induction names generalizing h with
  | nil => rfl
  | cons name names ih => rw [List.foldl_cons, List.foldl_cons, ih, addDependency_dependsOn]

end Harvest

/-! ## Programs -/

def mentions (statements : List Node) : List (Phase × Mention) :=
  (Trace.visitAll .load {} statements).mentions

def settingOf (classname : String) (src : Source) (resolver : Resolver) : Setting :=
  { classname, resolver, source := src, ignored := directives src.allDocs "ignore" }

theorem visitAll_eq_ofTrace (s : Setting) (statements : List Node) :
    Harvest.visitAll s .load {} statements = Harvest.ofTrace s (Trace.visitAll .load {} statements) :=
  Harvest.visitAll_ofTrace s .load {} statements

theorem ofProgram_dependsOn (classname : String) (src : Source) (statements : List Node)
    (resolver : Resolver) : (ofProgram classname src statements resolver).dependsOn =
      (directives src.allDocs "use").foldl (fun d name => need classname d .runtime (some name))
        ((directives src.allDocs "require").foldl (fun d name => need classname d .load (some name))
          ((mentions statements).foldl (fun d m => need classname d m.1
            ((settingOf classname src resolver).target? m.2)) .empty)) := by
  simp only [ofProgram, Harvest.foldl_addDependency_dependsOn, visitAll_eq_ofTrace,
    Harvest.ofTrace_dependsOn]
  rfl

/-- Whether the mentions of a source lead to the same classes under two resolvers. -/
def LeadAlike (classname source : String) (a b : Resolver) : Prop :=
  ∀ program, Script.Program.parse? source = some program →
    ∀ m ∈ mentions program.statements,
      (settingOf classname (Source.ofProgram source program) a).target? m.2 =
        (settingOf classname (Source.ofProgram source program) b).target? m.2

theorem dependsOn_of_leadAlike {classname source : String} (h : LeadAlike classname source a b) :
    (ofSource? classname source a).map (·.dependsOn) =
      (ofSource? classname source b).map (·.dependsOn) := by
  unfold ofSource?
  cases hp : Script.Program.parse? source with
  | none => rfl
  | some program =>
    simp only [Option.map_some, ofProgram_dependsOn]
    rw [List.foldl_ext _ _ Table.empty fun d m hm =>
      congrArg (need classname d m.1) (h program hp m hm)]

/-! ## Resolvers that differ in versions only -/

theorem isDeprecated_alike (h : a.Alike b) (classname : String) :
    Harvest.isDeprecated a classname = Harvest.isDeprecated b classname := by
  have hrel := h.record classname
  unfold Harvest.isDeprecated
  generalize a.record? classname = r, b.record? classname = r' at hrel ⊢
  cases hrel with
  | none => rfl
  | some hr => simp only [Option.bind_some, hr.doc]

theorem checkDeprecated_alike (s : Setting) (h : a.Alike b) (harvest : Harvest) (classname : String)
    (span : Span) :
    harvest.checkDeprecated { s with resolver := a } classname span =
      harvest.checkDeprecated { s with resolver := b } classname span := by
  simp only [Harvest.checkDeprecated, isDeprecated_alike h]

theorem take_alike (s : Setting) (h : a.Alike b) :
    Harvest.take { s with resolver := a } = Harvest.take { s with resolver := b } := by
  funext harvest m
  obtain ⟨phase, m⟩ := m
  cases m with
  | dotted name span =>
    simp only [Harvest.take, Harvest.reference, h.symbol name, checkDeprecated_alike s h]
    rfl
  | bare name =>
    simp only [Harvest.take, Harvest.identifier, h.isSome_record name]
    rfl
  | called callee args =>
    simp only [Harvest.take, Harvest.calling, h.symbol]
    rfl

theorem visitAll_alike (s : Setting) (h : a.Alike b) (statements : List Node) :
    Harvest.visitAll { s with resolver := a } .load {} statements =
      Harvest.visitAll { s with resolver := b } .load {} statements := by
  rw [visitAll_eq_ofTrace, visitAll_eq_ofTrace, Harvest.ofTrace, Harvest.ofTrace, take_alike s h]

theorem ofSource?_alike (h : a.Alike b) (classname source : String) :
    ofSource? classname source a = ofSource? classname source b := by
  unfold ofSource?
  cases Script.Program.parse? source with
  | none => rfl
  | some program =>
    have hall := visitAll_alike (settingOf classname (Source.ofProgram source program) a) h
      program.statements
    simp only [settingOf] at hall
    simp only [Option.map_some, ofProgram, hall]
    rfl

end ClassForge.Dependency
