import ClassForge.Dependency.Collect
import ClassForge.Proofs.Definitions.Outermost
import ClassForge.Proofs.Extract

/-!
# Where classes are defined

A record comes from the first call of a defining function. It is searched for here along with the phase
in which it runs, and the names that a record is built on are those in the sections of its call.
-/

namespace ClassForge

open Script (Node Span Source)

namespace ClassRecord

variable {src : Source} {file : String} {expected : Option String} {span : Span} {args : List Node}
  {value : Node} {r : ClassRecord} {x : Extraction} {d d' : Draft} {classType : ClassType}

/-- A call that defines a class, and the phase in which it runs. There is no phase if the call stands
in a part of another definition that collecting dependencies passes over. -/
structure Site where
  classType : ClassType
  span : Span
  args : List Node
  phase? : Option Phase

/-- Whether a call defines something, a class or anything else. -/
def defines (callee : Node) (args : List Node) : Bool :=
  callee.dottedName?.any (Dependency.Harvest.isDefinition · args)

mutual

/-- Searches a part of a program for the first definition of a class. If there is none, the phase of
the next function is returned, where it is not that of functions in general. -/
def search (phase? upcoming : Option Phase) : Node → Except Site (Option Phase)
  | .call span callee args =>
    match definition? callee with
    | some classType => .error { classType, span, args, phase? }
    | none => do
      let upcoming ← search phase? upcoming callee
      if defines callee args then
        match phase?, args with
        | some phase, text :: .object _ sections :: more =>
          searchAll none (← searchSections phase (← search none upcoming text) sections) more
        | _, others => searchAll none upcoming others
      else searchAll phase? upcoming args
  | .name .. | .this .. | .string .. | .number .. | .boolean .. | .null .. | .hole .. => .ok upcoming
  | .member _ o _ | .paren _ o | .spread _ o | .unary _ _ o => search phase? upcoming o
  | .index _ o parts | .new _ o parts => do searchAll phase? (← search phase? upcoming o) parts
  | .property _ _ computed value => do search phase? (← searchAll phase? upcoming computed) value
  | .array _ parts | .object _ parts | .param _ _ parts | .rest _ parts | .sequence _ parts
  | .arrowHead _ parts | .compound _ parts => searchAll phase? upcoming parts
  | .func _ params body =>
    match phase? with
    | none => do searchAll none (← searchAll none upcoming params) body
    | some _ => do
      let inner := some (upcoming.getD .runtime)
      searchAll inner (← searchAll inner none params) body
  | .binary _ _ l r | .assign _ l r | .shorthandDefault _ l r => do
    search phase? (← search phase? upcoming l) r

/-- Searches parts of a program, one after another. -/
def searchAll (phase? upcoming : Option Phase) : List Node → Except Site (Option Phase)
  | [] => .ok upcoming
  | n :: rest => do searchAll phase? (← search phase? upcoming n) rest

/-- Searches the sections of another definition. Its constructor runs when an object is constructed
and its `defer` function while the file loads. -/
def searchSections (phase : Phase) (upcoming : Option Phase) : List Node → Except Site (Option Phase)
  | [] => .ok upcoming
  | .property _ (some key) computed value :: rest => do
    let upcoming ← searchAll none upcoming computed
    let upcoming ← (
      if key = "construct" then (search (some .construct) (some .construct) value).map fun _ => none
      else if key = "defer" then (search (some phase) (some .load) value).map fun _ => none
      else if key = "members" ∨ key = "statics" then
        match value with
        | .object _ entries => searchEntries phase upcoming entries
        | other => search (some phase) upcoming other
      else search (some phase) upcoming value)
    searchSections phase upcoming rest
  | other :: rest => do searchSections phase (← search none upcoming other) rest

def searchEntries (phase : Phase) (upcoming : Option Phase) : List Node → Except Site (Option Phase)
  | [] => .ok upcoming
  | .property _ _ computed value :: rest => do
    let upcoming ← searchAll none upcoming computed
    searchEntries phase (← search (some phase) upcoming value) rest
  | other :: rest => do searchEntries phase (← search none upcoming other) rest

end

/-- The first definition of a class in a program, whose own code runs while the file loads. -/
def firstDefinition? (statements : List Node) : Option Site :=
  match searchAll (some .load) none statements with
  | .error site => some site
  | .ok _ => none

theorem searchAll_of_firstDefinition? {statements : List Node} {site : Site}
    (h : firstDefinition? statements = some site) :
    searchAll (some .load) none statements = .error site := by
  unfold firstDefinition? at h
  split at h
  · next hsearch =>
    cases h
    exact hsearch
  · cases h

theorem search_of_dottedName? (phase? upcoming : Option Phase) :
    (n : Node) → n.dottedName?.isSome = true → search phase? upcoming n = .ok upcoming
  | .name .., _ | .this .., _ => by simp only [search]
  | .member _ o _, h | .paren _ o, h => by
    simp only [Node.dottedName?, Option.isSome_map] at h
    simp only [search, search_of_dottedName? phase? upcoming o h]

theorem searchSections_property (phase : Phase) (upcoming : Option Phase) (span : Span) (key : String)
    (computed : List Node) (value : Node) (rest : List Node) :
    searchSections phase upcoming (.property span (some key) computed value :: rest) =
      searchAll none upcoming computed >>= fun upcoming =>
        (if key = "construct" then (search (some .construct) (some .construct) value).map fun _ => none
        else if key = "defer" then (search (some phase) (some .load) value).map fun _ => none
        else if key = "members" ∨ key = "statics" then
          match value with
          | .object _ entries => searchEntries phase upcoming entries
          | other => search (some phase) upcoming other
        else search (some phase) upcoming value) >>= fun upcoming =>
          searchSections phase upcoming rest := by
  cases value <;> rfl

/-! ## The search and the reader of records -/

namespace Finder

/-- What is known after a part of a program that is searched with this result. -/
def Reached (src : Source) (file : String) (expected : Option String) (f : Finder) :
    Except Site (Option Phase) → Prop
  | .ok _ => f = {}
  | .error site => ∃ calls,
    f = Finder.take src file expected {} (⟨[], site.classType, site.span, site.args⟩ :: calls)

variable {f : Finder} {result : Except Site (Option Phase)}
  {further : Option Phase → Except Site (Option Phase)}

theorem Reached.map (h : Reached src file expected f result) (g : Option Phase → Option Phase) :
    Reached src file expected f (result.map g) := by
  cases result with
  | ok upcoming => exact h
  | error site => exact h

/-- A definition that has been found stays the first one. -/
theorem Reached.visitAll {l : List Node} (h : Reached src file expected f result)
    (hl : ∀ upcoming,
      Reached src file expected (Finder.visitAll src file expected {} l) (further upcoming)) :
    Reached src file expected (Finder.visitAll src file expected f l) (result >>= further) := by
  cases result with
  | ok upcoming =>
    cases h
    exact hl upcoming
  | error site =>
    obtain ⟨calls, rfl⟩ := h
    obtain ⟨more, -, hvisit⟩ := exists_listing_of_all (fun n (_ : n ∈ l) => exists_listing n) 0
    exact ⟨calls ++ more, by rw [hvisit, take, take, take, ← List.foldl_append, List.cons_append]⟩

theorem Reached.visit {n : Node} (h : Reached src file expected f result)
    (hn : ∀ upcoming,
      Reached src file expected (Finder.visit src file expected {} n) (further upcoming)) :
    Reached src file expected (Finder.visit src file expected f n) (result >>= further) := by
  have hvisit (f : Finder) : Finder.visit src file expected f n =
      Finder.visitAll src file expected f [n] := by simp only [Finder.visitAll]
  rw [hvisit] at hn ⊢
  exact h.visitAll hn

mutual

theorem reached_visit (phase? upcoming : Option Phase) : (n : Node) →
    Reached src file expected (Finder.visit src file expected {} n) (search phase? upcoming n)
  | .call span callee args => by
    rw [Finder.visit, search]
    cases definition? callee with
    | some classType => exact ⟨[], rfl⟩
    | none =>
      refine (reached_visit phase? upcoming callee).visitAll fun upcoming => ?_
      have hplain := reached_visitAll phase? upcoming args
      have hother := reached_visitAll none upcoming args
      split_ifs
      · cases phase? with
        | none => exact hother
        | some phase =>
          rcases args with _ | ⟨text, _ | ⟨definition, more⟩⟩
          · exact hother
          · exact hother
          cases definition with
          | object _ sections =>
            rw [Finder.visitAll, Finder.visitAll, Finder.visit, ← visitAll_append]
            refine (reached_visit none upcoming text).visitAll fun upcoming => ?_
            rw [visitAll_append]
            exact (reached_searchSections phase upcoming sections).visitAll fun upcoming =>
              reached_visitAll none upcoming more
          | _ => exact hother
      · exact hplain
  | .name .. | .this .. | .string .. | .number .. | .boolean .. | .null .. | .hole .. => by
    simp only [Finder.visit, search]
    rfl
  | .member _ o _ | .paren _ o | .spread _ o | .unary _ _ o => by
    simp only [Finder.visit, search]
    exact reached_visit phase? upcoming o
  | .index _ o parts | .new _ o parts => by
    simp only [Finder.visit, search]
    exact (reached_visit phase? upcoming o).visitAll fun upcoming =>
      reached_visitAll phase? upcoming parts
  | .property _ _ computed value => by
    rw [Finder.visit, search]
    exact (reached_visitAll phase? upcoming computed).visit fun upcoming =>
      reached_visit phase? upcoming value
  | .array _ parts | .object _ parts | .param _ _ parts | .rest _ parts | .sequence _ parts
  | .arrowHead _ parts | .compound _ parts => by
    simp only [Finder.visit, search]
    exact reached_visitAll phase? upcoming parts
  | .func _ params body => by
    cases phase? with
    | none =>
      rw [Finder.visit, search]
      exact (reached_visitAll none upcoming params).visitAll fun upcoming =>
        reached_visitAll none upcoming body
    | some phase =>
      rw [Finder.visit, search]
      exact (reached_visitAll _ none params).visitAll fun upcoming => reached_visitAll _ upcoming body
  | .binary _ _ l r | .assign _ l r | .shorthandDefault _ l r => by
    simp only [Finder.visit, search]
    exact (reached_visit phase? upcoming l).visit fun upcoming => reached_visit phase? upcoming r

theorem reached_visitAll (phase? upcoming : Option Phase) : (l : List Node) →
    Reached src file expected (Finder.visitAll src file expected {} l) (searchAll phase? upcoming l)
  | [] => by
    rw [Finder.visitAll, searchAll]
    rfl
  | n :: rest => by
    rw [Finder.visitAll, searchAll]
    exact (reached_visit phase? upcoming n).visitAll fun upcoming =>
      reached_visitAll phase? upcoming rest

theorem reached_searchSections (phase : Phase) (upcoming : Option Phase) : (l : List Node) →
    Reached src file expected (Finder.visitAll src file expected {} l)
      (searchSections phase upcoming l)
  | [] => by
    rw [Finder.visitAll]
    rfl
  | n :: rest => by
    have hother := (reached_visit none upcoming n).visitAll fun upcoming =>
      reached_searchSections phase upcoming rest
    cases n with
    | property span key computed value =>
      cases key with
      | none => exact hother
      | some key =>
        rw [searchSections_property, Finder.visitAll, Finder.visit, ← Finder.visitAll]
        refine (reached_visitAll none upcoming computed).visitAll fun upcoming => ?_
        rw [Finder.visitAll]
        refine Reached.visitAll ?_ fun upcoming => reached_searchSections phase upcoming rest
        split_ifs
        · exact (reached_visit _ _ value).map _
        · exact (reached_visit _ _ value).map _
        · have hplain := reached_visit (some phase) upcoming value
          cases value with
          | object _ entries =>
            rw [Finder.visit]
            exact reached_searchEntries phase upcoming entries
          | _ => exact hplain
        · exact reached_visit _ _ value
    | _ => exact hother

theorem reached_searchEntries (phase : Phase) (upcoming : Option Phase) : (l : List Node) →
    Reached src file expected (Finder.visitAll src file expected {} l) (searchEntries phase upcoming l)
  | [] => by
    rw [Finder.visitAll, searchEntries]
    rfl
  | n :: rest => by
    have hother := (reached_visit none upcoming n).visitAll fun upcoming =>
      reached_searchEntries phase upcoming rest
    cases n with
    | property span key computed value =>
      rw [searchEntries, Finder.visitAll, Finder.visit, ← Finder.visitAll]
      refine (reached_visitAll none upcoming computed).visitAll fun upcoming => ?_
      rw [Finder.visitAll]
      exact (reached_visit _ upcoming value).visitAll fun upcoming =>
        reached_searchEntries phase upcoming rest
    | _ => exact hother

end

end Finder

theorem exists_firstDefinition {statements : List Node}
    (h : ofProgram src statements file expected = .ok x) :
    ∃ site, firstDefinition? statements = some site ∧
      extract src file site.classType site.span site.args = .ok x.record := by
  have hreached : Finder.Reached src file expected (Finder.visitAll src file expected {} statements)
    (searchAll (some .load) none statements) := Finder.reached_visitAll (some .load) none statements
  rw [firstDefinition?]
  cases hsearch : searchAll (some .load) none statements with
  | ok upcoming =>
    rw [hsearch] at hreached
    rw [ofProgram, show Finder.visitAll src file expected {} statements = {} from hreached] at h
    cases h
  | error site =>
    rw [hsearch] at hreached
    obtain ⟨calls, hcalls⟩ := hreached
    rw [ofProgram_eq_outcome_of_visitAll hcalls, outcome] at h
    refine ⟨site, rfl, ?_⟩
    dsimp only at h
    cases hextract : extract src file site.classType site.span site.args with
    | error e =>
      rw [hextract] at h
      cases h
    | ok r =>
      rw [hextract] at h
      cases h
      rfl

/-! ## The classes that a class is built on -/

def foundationKeys : List String := ["extend", "include", "implement"]

def foundations : List Node → List String
  | .string .. :: .object _ sections :: _ =>
    (namedProperties sections).flatMap fun (_, key, value) =>
      if key ∈ foundationKeys then namesOf value else []
  | _ => []

theorem mem_namesOf_of_dottedName? {name : String} (h : value.dottedName? = some name) :
    name ∈ namesOf value := by
  cases value with
  | array _ items => cases h
  | _ => exact Option.mem_toList.2 h

theorem mem_hierarchyRefs_readSection {key name : String}
    (h : readSection src file d span key value = .ok d') (hname : name ∈ d'.record.hierarchyRefs) :
    name ∈ d.record.hierarchyRefs ∨ key ∈ foundationKeys ∧ name ∈ namesOf value := by
  revert h
  fun_cases readSection src file d span key value
  all_goals
    intro h
    cases h
  -- `extend` of an interface, `extend` of a class, `include` and `implement`
  case case2 | case4 | case5 =>
    simp only [hierarchyRefs, List.mem_append] at hname ⊢
    simp only [foundationKeys, List.mem_cons, true_or, or_true, true_and]
    grind
  case case3 =>
    simp only [hierarchyRefs, List.mem_append, Option.mem_toList] at hname ⊢
    obtain (hname | hname) | hname := hname
    · exact .inr ⟨by simp [foundationKeys], mem_namesOf_of_dottedName? hname⟩
    · exact .inl (.inl (.inr hname))
    · exact .inl (.inr hname)
  all_goals exact .inl hname

theorem mem_hierarchyRefs_readSections {name : String} {sections : List (Span × String × Node)}
    (h : readSections src file d sections = .ok d') : name ∈ d'.record.hierarchyRefs →
    name ∈ d.record.hierarchyRefs ∨
      ∃ span key value, (span, key, value) ∈ sections ∧ key ∈ foundationKeys ∧
        name ∈ namesOf value := by
  refine readSections_induct (P := fun d' => name ∈ d'.record.hierarchyRefs → _)
    (fun hmem hs ih hname => ?_) .inl h
  obtain hd | hnew := mem_hierarchyRefs_readSection hs hname
  · exact ih hd
  · exact .inr ⟨_, _, _, hmem, hnew⟩

theorem hierarchyRefs_subset_foundations (h : extract src file classType span args = .ok r) :
    r.hierarchyRefs ⊆ foundations args := by
  intro name hname
  obtain ⟨_, _, _, rfl, rfl | ⟨_, sections, _, d, rfl, hs, rfl⟩⟩ := extract_cases h
  · cases hname
  · obtain hnone | ⟨span, key, value, hmem, hkey, hvalue⟩ := mem_hierarchyRefs_readSections hs hname
    · cases hnone
    · exact List.mem_flatMap.2 ⟨(span, key, value), hmem, by simpa [hkey] using hvalue⟩

/-! ## The class that a source declares -/

theorem classname_readSections {sections : List (Span × String × Node)}
    (h : readSections src file d sections = .ok d') : d'.record.classname = d.record.classname :=
  readSections_induct (P := fun d' => d'.record.classname = d.record.classname)
    (fun _ hs hd => (head_readSection hs).1.trans hd) rfl h

theorem exists_args_of_extract (h : extract src file classType span args = .ok r) :
    ∃ place more, args = .string place r.classname :: more := by
  obtain ⟨place, _, more, rfl, rfl | ⟨_, _, _, d, -, hs, rfl⟩⟩ := extract_cases h
  · exact ⟨place, more, rfl⟩
  · have hname := classname_readSections hs
    exact ⟨place, more, by rw [Draft.finish, hname]; rfl⟩

def declaredName? (source : String) : Option String := do
  let program ← Script.Program.parse? source
  match (firstDefinition? program.statements).map Site.args with
  | some (.string _ classname :: _) => some classname
  | _ => none

theorem declaredName?_of_ofFile {t : FileTree} {file : Path} (h : ofFile t file expected = .ok x) :
    ∃ source, t.read file = .ok source ∧ declaredName? source = some x.record.classname := by
  obtain ⟨source, hsource, h⟩ := exists_of_bind_ok h
  have hread : t.read file = .ok source := by
    cases hread : t.read file with
    | error e =>
      rw [hread] at hsource
      cases hsource
    | ok text =>
      rw [hread] at hsource
      cases hsource
      rfl
  refine ⟨source, hread, ?_⟩
  rw [ofSource] at h
  split at h
  · cases h
  · next program hprogram =>
    obtain ⟨site, hsite, hextract⟩ := exists_firstDefinition h
    obtain ⟨_, more, hargs⟩ := exists_args_of_extract hextract
    rw [declaredName?, hprogram, Option.bind_eq_bind, Option.bind_some, hsite, Option.map_some, hargs]

end ClassRecord

end ClassForge
