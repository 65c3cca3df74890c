import ClassForge.Proofs.Script.Words
import ClassForge.Script.Program

/-!
# Names have no points

A name that a program reads is a word, so it is written without a point; a dotted name is always a
member of something. The readers of constructs are gone through one after another, each on the
assumption that what it reads inside keeps to this, and the depth of a program ties them together.
-/

open Std.Do

set_option mvcgen.warning false

namespace ClassForge.Script

/-! ## Nodes -/

mutual

/-- Every name in a node is written without a point. -/
@[simp, grind]
def Node.Undotted : Node → Prop
  | .name _ text => '.' ∉ text.toList
  | .this .. | .string .. | .number .. | .boolean .. | .null .. | .hole .. => True
  | .member _ o _ | .paren _ o | .spread _ o | .unary _ _ o => o.Undotted
  | .index _ o parts | .call _ o parts | .new _ o parts => o.Undotted ∧ Node.AllUndotted parts
  | .property _ _ parts o => o.Undotted ∧ Node.AllUndotted parts
  | .array _ parts | .object _ parts | .param _ _ parts | .rest _ parts | .sequence _ parts
  | .compound _ parts | .arrowHead _ parts => Node.AllUndotted parts
  | .func _ params body => Node.AllUndotted params ∧ Node.AllUndotted body
  | .binary _ _ l r | .assign _ l r | .shorthandDefault _ l r => l.Undotted ∧ r.Undotted

/-- Every name in some nodes is written without a point. -/
def Node.AllUndotted : List Node → Prop
  | [] => True
  | n :: more => n.Undotted ∧ Node.AllUndotted more

end

namespace Node

@[simp, grind =]
theorem allUndotted_iff {l : List Node} : AllUndotted l ↔ ∀ n ∈ l, n.Undotted := by
  induction l with
  | nil => simp [AllUndotted]
  | cons n more ih => simp [AllUndotted, ih]

theorem undotted_asTarget? {e target : Node} (h : e.asTarget? = some target) (he : e.Undotted) :
    target.Undotted := by
  revert target he
  apply asTarget?.induct
    (fun e => ∀ {t}, e.asTarget? = some t → e.Undotted → t.Undotted)
    (fun l => ∀ {ts}, asTargetProperties? l = some ts → AllUndotted l → AllUndotted ts)
    (fun l => ∀ {ts}, asTargetItems? l = some ts → AllUndotted l → AllUndotted ts)
  all_goals
    intros
    rename_i h he
    -- each case is about one of the three functions, opened once
    first
    | simp only [asTarget?, Option.map_eq_some_iff] at h
    | simp only [asTargetProperties?, Option.bind_eq_bind, Option.bind_eq_some_iff,
        Option.pure_def] at h
    | simp only [asTargetItems?, Option.map_eq_some_iff, Option.bind_eq_bind,
        Option.bind_eq_some_iff, Option.pure_def] at h
    grind only [Undotted, AllUndotted]

theorem undotted_asBinding? {e : Node} {parts : List Node} (h : e.asBinding? = some parts)
    (he : e.Undotted) : AllUndotted parts := by
  revert parts he
  apply asBinding?.induct
    (fun e => ∀ {ps}, e.asBinding? = some ps → e.Undotted → AllUndotted ps)
    (fun l => ∀ {ps}, asBindingProperties? l = some ps → AllUndotted l → AllUndotted ps)
    (fun l => ∀ {ps}, asBindingItems? l = some ps → AllUndotted l → AllUndotted ps)
  all_goals
    intros
    rename_i h he
    first
    | simp only [asBinding?] at h
    | simp only [asBindingProperties?, Option.bind_eq_bind, Option.bind_eq_some_iff,
        Option.pure_def] at h
    | simp only [asBindingItems?, Option.bind_eq_bind, Option.bind_eq_some_iff,
        Option.pure_def] at h
    grind only [Undotted, AllUndotted, allUndotted_iff, List.mem_append, List.mem_cons]

theorem undotted_asParam? {e p : Node} (h : e.asParam? = some p) (he : e.Undotted) :
    p.Undotted := by
  unfold asParam? at h
  split at h <;> obtain ⟨parts, hparts, rfl⟩ := Option.map_eq_some_iff.1 h
  · have hbound := undotted_asBinding? hparts
    grind
  · exact undotted_asBinding? hparts he

theorem undotted_asParams? {items params : List Node} (h : asParams? items = some params)
    (hitems : AllUndotted items) : AllUndotted params := by
  fun_induction asParams? items generalizing params with
  | case1 => grind
  | case2 s inner =>
    obtain ⟨parts, hparts, rfl⟩ := Option.map_eq_some_iff.1 h
    have hinner : inner.Undotted := by simpa using hitems
    simpa using undotted_asBinding? hparts hinner
  | case3 item more _ ih =>
    simp only [Option.bind_eq_bind, Option.bind_eq_some_iff, Option.pure_def, Option.some.injEq] at h
    obtain ⟨p, hp, ps, hps, rfl⟩ := h
    grind [undotted_asParam?]

end Node

/-! ## Collecting

A rule for collecting has to say which property is meant, so there is one for each kind of thing that
readers collect. -/

namespace Reader

@[spec]
theorem collect_nodes {one : Reader (Option Node)} (h : one.Gives fun o => ∀ n ∈ o, n.Undotted) :
    (collect one).Gives fun l => Node.AllUndotted l := by
  simpa only [Node.allUndotted_iff] using collect_gives h

@[spec]
theorem collect_lists {one : Reader (Option (List Node))}
    (h : one.Gives fun o => ∀ l ∈ o, Node.AllUndotted l) :
    (collect one).Gives fun ls => Node.AllUndotted ls.flatten := by
  simpa only [Node.allUndotted_iff, List.forall_mem_flatten] using collect_gives h

@[spec]
theorem collect_declarations {one : Reader (Option (List Node × Bool))}
    (h : one.Gives fun o => ∀ d ∈ o, Node.AllUndotted d.1) :
    (collect one).Gives fun ds => Node.AllUndotted (ds.flatMap Prod.fst) := by
  simpa only [Node.allUndotted_iff, List.forall_mem_flatMap] using collect_gives h

@[spec]
theorem collect_items {one : Reader (Option (Node × Bool))}
    (h : one.Gives fun o => ∀ i ∈ o, i.1.Undotted) :
    (collect one).Gives fun is => Node.AllUndotted (is.map Prod.fst) := by
  simpa only [Node.allUndotted_iff, List.forall_mem_map] using collect_gives h

@[spec]
theorem collect_tokens {one : Reader (Option (Span × Token))}
    (h : one.Gives fun o => ∀ i ∈ o, i.2.Undotted) :
    (collect one).Gives fun is => ∀ i ∈ is, i.2.Undotted := collect_gives h

@[spec]
theorem collect_units {one : Reader (Option Unit)} (h : one.Gives fun _ => True) :
    (collect one).Gives fun _ => True := by
  have hall : (collect one).Gives fun l => ∀ a ∈ l, a = () := collect_gives (by mvcgen -trivial -leave [h] with grind)
  mvcgen -trivial -leave [hall] with grind

theorem mapM_gives {α : Type} {f : α → Reader Node} {l : List α}
    (h : ∀ a ∈ l, (f a).Gives Node.Undotted) : (l.mapM f).Gives Node.AllUndotted := by
  induction l with
  | nil => mvcgen [List.mapM_nil]
  | cons a l ih =>
    have ha := h a (by simp)
    have hl := ih fun b hb => h b (by simp [hb])
    rw [List.mapM_cons]
    mvcgen -trivial -leave [ha, hl] with grind

end Reader

namespace Grammar

open Reader

/-! ## Names and lists -/

theorem nameOf?_undotted {ctx : Context} {t : Token} {text : String} (h : nameOf? ctx t = some text)
    (ht : t.Undotted) : '.' ∉ text.toList := by
  unfold nameOf? at h
  grind [Token.Undotted]

@[spec]
theorem identifier_gives (ctx : Context) : (identifier ctx).Gives fun text => '.' ∉ text.toList := by
  mvcgen [identifier]
  all_goals grind [nameOf?_undotted]

@[spec]
theorem comma_gives (close : String) : (comma close).Gives fun _ => True := by
  mvcgen -trivial -leave [comma] with grind

class Undotting (self : Goal → Reader Node) : Prop where
  gives (goal : Goal) : (self goal).Gives Node.Undotted

variable {self : Goal → Reader Node} [Undotting self] (ctx : Context) (start : Nat)

@[spec]
theorem spreadable_gives : (spreadable self ctx).Gives Node.Undotted := by
  mvcgen -trivial -leave [spreadable, Undotting.gives] with grind

@[spec]
theorem arguments_gives : (arguments self ctx).Gives Node.AllUndotted := by
  mvcgen -trivial -leave [arguments] with grind

@[spec]
theorem array_gives : (array self ctx).Gives Node.Undotted := by
  mvcgen -trivial -leave [array] with grind

/-! ## Templates and regular expressions -/

@[spec]
theorem reread_gives {read : Nat → Nat → List Char → Option (Token × Nat × List Char)}
    (hread : ∀ fuel pos cs t stop rest, read fuel pos cs = some (t, stop, rest) → t.Undotted) :
    (reread read).Gives fun _ => True := by
  refine gives_iff.2 fun c _ d _ h => ⟨trivial, ?_⟩
  simp only [reread, Cursor.reread, Option.bind_eq_bind, Option.map_eq_some_iff,
    Option.bind_eq_some_iff] at h
  grind

@[spec]
theorem templateParts_gives (tagged : Bool) :
    (templateParts self ctx tagged).Gives Node.AllUndotted := by
  mvcgen -trivial -leave [templateParts, Undotting.gives] with grind [Token.undotted_templateBody]

@[spec]
theorem regex_gives : regex.Gives Node.Undotted := by
  mvcgen -trivial -leave [regex] with grind [Token.undotted_regexRest]

/-! ## Functions -/

@[grind →]
theorem undotted_partsOf {p n : Node} (hn : n ∈ partsOf p) (hp : p.Undotted) : n.Undotted := by
  cases p <;> grind [partsOf]

@[spec]
theorem bindingWithDefault_gives : (bindingWithDefault self ctx).Gives Node.Undotted := by
  mvcgen -trivial -leave [bindingWithDefault, Undotting.gives] with grind

@[spec]
theorem params_gives : (params self ctx).Gives Node.AllUndotted := by
  mvcgen -trivial -leave [params, Undotting.gives] with grind

@[spec]
theorem block_gives : (block self ctx).Gives Node.AllUndotted := by
  mvcgen -trivial -leave [block, Undotting.gives] with grind

@[spec]
theorem functionRest_gives (asynchronous generator : Bool) :
    (functionRest self asynchronous generator start).Gives Node.Undotted := by
  mvcgen -trivial -leave [functionRest] with grind

@[spec]
theorem functionExpression_gives (asynchronous : Bool) :
    (functionExpression self asynchronous start).Gives Node.Undotted := by
  mvcgen -trivial -leave [functionExpression] with grind

/-! ## Properties -/

def Key.Undotted (k : Key) : Prop :=
  Node.AllUndotted k.computed ∧ ∀ t ∈ k.word, t.Undotted

@[spec]
theorem key_gives : (key self ctx).Gives Key.Undotted := by
  mvcgen -trivial -leave [key, Undotting.gives] with grind [Key.Undotted]

@[spec]
theorem method_gives (asynchronous generator : Bool) :
    (method self ctx asynchronous generator start).Gives Node.Undotted := by
  mvcgen -trivial -leave [method] with grind [Key.Undotted]

@[spec]
theorem accessor_gives (reads : Bool) : (accessor self ctx reads start).Gives Node.Undotted := by
  mvcgen -trivial -leave [accessor] with grind [Key.Undotted]

@[spec]
theorem plainProperty_gives : (plainProperty self ctx start).Gives Node.Undotted := by
  mvcgen [plainProperty, Undotting.gives]
    with grind [Key.Undotted, nameOf?_undotted, Option.bind_eq_some_iff]

@[spec]
theorem objectProperty_gives : (objectProperty self ctx).Gives Node.Undotted := by
  mvcgen -trivial -leave [objectProperty, Undotting.gives] with grind

@[spec]
theorem object_gives : (object self ctx).Gives Node.Undotted := by
  mvcgen -trivial -leave [object] with grind

/-! ## Patterns -/

@[spec]
theorem arrayPattern_gives : (arrayPattern self ctx).Gives Node.AllUndotted := by
  mvcgen -trivial -leave [arrayPattern, Undotting.gives] with grind

@[spec]
theorem patternProperty_gives : (patternProperty self ctx).Gives Node.AllUndotted := by
  mvcgen -trivial -leave [patternProperty, Undotting.gives] with grind [Key.Undotted]

@[spec]
theorem objectPattern_gives : (objectPattern self ctx).Gives Node.AllUndotted := by
  mvcgen -trivial -leave [objectPattern] with grind

@[spec]
theorem binding_gives : (binding self ctx).Gives Node.Undotted := by
  mvcgen -trivial -leave [binding] with grind

/-! ## Classes -/

@[spec]
theorem decorators_gives : (decorators self ctx).Gives Node.AllUndotted := by
  mvcgen -trivial -leave [decorators, Undotting.gives] with grind

@[spec]
theorem elementKey_gives : (elementKey self ctx).Gives Key.Undotted := by
  mvcgen -trivial -leave [elementKey] with grind [Key.Undotted]

@[spec]
theorem elementRest_gives {k : Key} (hk : k.Undotted) :
    (elementRest self k).Gives Node.AllUndotted := by
  mvcgen -trivial -leave [elementRest, Undotting.gives] with grind [Key.Undotted]

@[spec]
theorem element_gives : (element self ctx).Gives Node.AllUndotted := by
  mvcgen -trivial -leave [element, Undotting.gives] with grind [Key.Undotted]

@[spec]
theorem classElement_gives : (classElement self ctx).Gives Node.AllUndotted := by
  mvcgen -trivial -leave [classElement] with grind

@[spec]
theorem classRest_gives {before : List Node}
    (hbefore : Node.AllUndotted before) : (classRest self ctx start before).Gives Node.Undotted := by
  mvcgen -trivial -leave [classRest, Undotting.gives] with grind

/-! ## Primary expressions -/

@[spec]
theorem parenthesized_gives : (parenthesized self ctx).Gives Node.Undotted := by
  mvcgen -trivial -leave [parenthesized] with grind

@[spec]
theorem importExpression_gives : (importExpression self ctx start).Gives Node.Undotted := by
  mvcgen -trivial -leave [importExpression] with grind

@[spec]
theorem wordExpression_gives (c : Cursor) : (wordExpression self ctx c).Gives Node.Undotted := by
  mvcgen -trivial -leave [wordExpression] with grind

@[spec]
theorem primary_gives : (primary self ctx).Gives Node.Undotted := by
  mvcgen -trivial -leave [primary] with grind

/-! ## Members and calls -/

@[spec]
theorem memberName_gives {base : Node} (hbase : base.Undotted) :
    (memberName start base).Gives Node.Undotted := by
  mvcgen -trivial -leave [memberName] with grind

@[spec]
theorem bracketMember_gives {base : Node} (hbase : base.Undotted) :
    (bracketMember self ctx start base).Gives Node.Undotted := by
  mvcgen -trivial -leave [bracketMember, Undotting.gives] with grind

@[spec]
theorem memberTail_gives (calls : Bool) (fuel : Nat) {base : Node}
    (hbase : base.Undotted) (chained : Bool) :
    (memberTail self ctx calls start fuel base chained).Gives Node.Undotted := by
  induction fuel generalizing base chained with
  | zero =>
    mvcgen [memberTail]
    grind
  | succ fuel ih => mvcgen -trivial -leave [memberTail, ih] with grind

@[spec]
theorem newExpression_gives : (newExpression self ctx).Gives Node.Undotted := by
  mvcgen -trivial -leave [newExpression, Undotting.gives] with grind

@[spec]
theorem leftHandSide_gives : (leftHandSide self ctx).Gives Node.Undotted := by
  mvcgen -trivial -leave [leftHandSide] with grind

/-! ## Operators -/

@[spec]
theorem unary_gives : (unary self ctx).Gives Node.Undotted := by
  mvcgen -trivial -leave [unary, Undotting.gives] with grind

@[spec]
theorem binaryTail_gives (level fuel : Nat) {left : Node} (hleft : left.Undotted) :
    (binaryTail self ctx level fuel left).Gives Node.Undotted := by
  induction fuel generalizing left with
  | zero =>
    mvcgen [binaryTail]
    grind
  | succ fuel ih => mvcgen -trivial -leave [binaryTail, Undotting.gives, ih] with grind

@[spec]
theorem binary_gives (level : Nat) : (binary self ctx level).Gives Node.Undotted := by
  mvcgen -trivial -leave [binary] with grind

@[spec]
theorem conditional_gives : (conditional self ctx).Gives Node.Undotted := by
  mvcgen -trivial -leave [conditional, Undotting.gives] with grind

/-! ## Arrow functions and assignments -/

@[spec]
theorem arrowBody_gives (asynchronous : Bool) {params : List Node}
    (hparams : Node.AllUndotted params) :
    (arrowBody self ctx asynchronous start params).Gives Node.Undotted := by
  mvcgen -trivial -leave [arrowBody, Undotting.gives] with grind

theorem undotted_arrowHead? {asyncCall asynchronous : Bool} {e : Node} {params : List Node}
    (h : arrowHead? asyncCall e = some (asynchronous, params)) (he : e.Undotted) :
    Node.AllUndotted params := by
  unfold arrowHead? at h
  grind [Node.undotted_asParams?, Option.map_eq_some_iff]

@[spec]
theorem yieldExpression_gives : (yieldExpression self ctx).Gives Node.Undotted := by
  mvcgen [yieldExpression, Undotting.gives] with simp_all

@[spec]
theorem plainArrow?_gives :
    (plainArrow? self ctx).Gives fun o => ∀ n ∈ o, n.Undotted := by
  mvcgen -trivial -leave [plainArrow?] with grind

@[spec]
theorem assignment_gives : (assignment self ctx).Gives Node.Undotted := by
  mvcgen -trivial -leave [assignment, Undotting.gives] with grind [undotted_arrowHead?, Node.undotted_asTarget?]

@[spec]
theorem expression_gives : (expression self ctx).Gives Node.Undotted := by
  mvcgen -trivial -leave [expression, Undotting.gives] with grind

/-! ## Declarations -/

@[spec]
theorem declarations_one_gives (constant : Bool) :
    (declarations.one self ctx constant).Gives fun d => Node.AllUndotted d.1 := by
  mvcgen -trivial -leave [declarations.one, Undotting.gives] with grind

@[spec]
theorem declarations_gives (constant : Bool) :
    (declarations self ctx constant).Gives fun d => Node.AllUndotted d.1 := by
  mvcgen -trivial -leave [declarations] with grind

@[spec]
theorem atDeclaration_gives : (atDeclaration ctx).Gives fun _ => True := by
  mvcgen -trivial -leave [atDeclaration] with grind

@[spec]
theorem declarationStatement_gives : (declarationStatement self ctx).Gives Node.Undotted := by
  mvcgen -trivial -leave [declarationStatement] with grind

@[spec]
theorem functionDeclaration_gives (asynchronous : Bool) :
    (functionDeclaration self ctx asynchronous start).Gives Node.Undotted := by
  mvcgen -trivial -leave [functionDeclaration] with grind

@[spec]
theorem classDeclaration_gives {before : List Node}
    (hbefore : Node.AllUndotted before) :
    (classDeclaration self ctx start before).Gives Node.Undotted := by
  mvcgen -trivial -leave [classDeclaration] with grind

/-! ## Compound statements -/

@[spec]
theorem parenthesizedTest_gives : (parenthesizedTest self ctx).Gives Node.Undotted := by
  mvcgen -trivial -leave [parenthesizedTest, Undotting.gives] with grind

@[spec]
theorem countingHead_gives {first : List Node} (hfirst : Node.AllUndotted first) :
    (countingHead self ctx first).Gives Node.AllUndotted := by
  mvcgen -trivial -leave [countingHead, Undotting.gives] with grind

@[spec]
theorem iteratedHead_gives {first : List Node} (hfirst : Node.AllUndotted first) :
    (iteratedHead self ctx first).Gives Node.AllUndotted := by
  mvcgen -trivial -leave [iteratedHead, Undotting.gives] with grind

@[spec]
theorem loopHead_gives (awaits : Bool) : (loopHead self ctx awaits).Gives Node.AllUndotted := by
  mvcgen -trivial -leave [loopHead, Undotting.gives] with grind [Node.undotted_asTarget?, Option.map_eq_some_iff]

@[spec]
theorem forStatement_gives : (forStatement self ctx start).Gives Node.Undotted := by
  mvcgen -trivial -leave [forStatement, Undotting.gives] with grind

@[spec]
theorem switchCase_gives : (switchCase self ctx).Gives Node.AllUndotted := by
  mvcgen -trivial -leave [switchCase, Undotting.gives] with grind

@[spec]
theorem switchStatement_gives : (switchStatement self ctx start).Gives Node.Undotted := by
  mvcgen -trivial -leave [switchStatement] with grind

@[spec]
theorem tryStatement_gives : (tryStatement self ctx start).Gives Node.Undotted := by
  mvcgen -trivial -leave [tryStatement, Undotting.gives] with grind

@[spec]
theorem jump_gives : (jump ctx start).Gives Node.Undotted := by
  mvcgen -trivial -leave [jump] with grind

/-! ## Imports and exports -/

@[spec]
theorem moduleName_gives : moduleName.Gives fun _ => True := by
  mvcgen -trivial -leave [moduleName] with grind

@[spec]
theorem importAttributes_gives : importAttributes.Gives fun _ => True := by
  mvcgen -trivial -leave [importAttributes] with grind

@[spec]
theorem moduleSource_gives : moduleSource.Gives fun _ => True := by
  mvcgen -trivial -leave [moduleSource] with grind

@[spec]
theorem specifiers_gives : specifiers.Gives fun l => ∀ i ∈ l, i.2.Undotted := by
  mvcgen -trivial -leave [specifiers] with grind

@[spec]
theorem importDeclaration_gives : (importDeclaration ctx start).Gives Node.Undotted := by
  mvcgen -trivial -leave [importDeclaration] with grind

@[spec]
theorem exportedDeclaration_gives : (exportedDeclaration self ctx start).Gives Node.Undotted := by
  mvcgen -trivial -leave [exportedDeclaration] with grind

@[spec]
theorem defaultExport_gives : (defaultExport self ctx).Gives Node.AllUndotted := by
  mvcgen -trivial -leave [defaultExport, Undotting.gives] with grind

@[spec]
theorem exportDeclaration_gives : (exportDeclaration self ctx start).Gives Node.Undotted := by
  mvcgen -trivial -leave [exportDeclaration, mapM_gives] with grind [nameOf?_undotted]

/-! ## Statements -/

@[spec]
theorem plainStatement_gives : (plainStatement self ctx).Gives Node.Undotted := by
  mvcgen -trivial -leave [plainStatement, Undotting.gives] with grind

theorem wordStatement?_gives {ctx : Context} {single : Bool} {c : Cursor} {r : Reader Node}
    (hr : wordStatement? self ctx single c = some r) : r.Gives Node.Undotted := by
  unfold wordStatement? at hr
  -- one case for each word that starts a statement
  split at hr <;> cases hr <;> mvcgen -trivial -leave [Undotting.gives] with grind

@[spec]
theorem statement_gives (single : Bool) : (statement self ctx single).Gives Node.Undotted := by
  mvcgen [statement] with try grind
  exact wordStatement?_gives (by assumption) _ (by assumption)

end Grammar

/-! ## Programs -/

namespace Program

open Grammar

theorem undotting_readGoal (depth : Nat) : Undotting (readGoal depth) := by
  induction depth with
  | zero =>
    refine ⟨fun goal => ?_⟩
    mvcgen [readGoal]
    grind
  | succ depth ih =>
    refine ⟨fun goal => ?_⟩
    cases goal with
    | expression ctx => exact expression_gives ctx
    | assignment ctx => exact assignment_gives ctx
    | binary ctx level => exact binary_gives ctx level
    | unary ctx => exact unary_gives ctx
    | newExpression ctx => exact newExpression_gives ctx
    | leftHandSide ctx => exact leftHandSide_gives ctx
    | binding ctx => exact binding_gives ctx
    | statement ctx single => exact statement_gives ctx single

theorem readAll_gives (depth : Nat) : (readAll depth).Gives Node.AllUndotted := by
  have := undotting_readGoal depth
  mvcgen -trivial -leave [readAll, Undotting.gives] with grind

theorem undotted_of_parse? {source : String} {program : Program}
    (h : parse? source = some program) : ∀ n ∈ program.statements, n.Undotted := by
  simp only [parse?, Option.bind_eq_bind, Option.bind_eq_some_iff] at h
  obtain ⟨start, hstart, ⟨statements, final⟩, hread, h⟩ := h
  have hall := Reader.gives_iff.1 (readAll_gives _) start statements final
    (Cursor.undotted_start hstart) hread
  grind

end Program

end ClassForge.Script
