import ClassForge.Number.Binary64

/-!
# JavaScript programs

The tree of a JavaScript program, as far as class files need it. Expressions that carry meaning for
a class file have a constructor of their own; every other construct is a `compound` of its parts in
the order of the text. Names that are bound rather than read leave no node.
-/

namespace ClassForge.Script

structure Span where
  start : Nat
  stop : Nat
deriving DecidableEq, Inhabited

/-- A part of a program. -/
inductive Node where
  | name (span : Span) (text : String)
  | this (span : Span)
  | string (span : Span) (value : String)
  | number (span : Span) (value : Binary64)
  | boolean (span : Span) (value : Bool)
  | null (span : Span)
  | member (span : Span) (object : Node) (property : String)
  | index (span : Span) (object : Node) (parts : List Node)
  | call (span : Span) (callee : Node) (args : List Node)
  | new (span : Span) (callee : Node) (args : List Node)
  | paren (span : Span) (inner : Node)
  | array (span : Span) (items : List Node)
  | object (span : Span) (properties : List Node)
  | property (span : Span) (key : Option String) (computed : List Node) (value : Node)
  | spread (span : Span) (inner : Node)
  /-- A place in an array without a value. -/
  | hole (span : Span)
  | func (span : Span) (params : List Node) (body : List Node)
  | param (span : Span) (bound : Option String) (parts : List Node)
  | rest (span : Span) (parts : List Node)
  | unary (span : Span) (op : String) (inner : Node)
  | binary (span : Span) (op : String) (left right : Node)
  | assign (span : Span) (target value : Node)
  /-- Expressions divided by commas. -/
  | sequence (span : Span) (items : List Node)
  /-- A property `name = value`, which only a pattern can have. -/
  | shorthandDefault (span : Span) (target value : Node)
  | arrowHead (span : Span) (items : List Node)
  | compound (span : Span) (parts : List Node)

namespace Node

instance : Inhabited Node := ⟨.compound default []⟩

def span : Node → Span
  | name s _ | this s | string s _ | number s _ | boolean s _ | null s | member s _ _ | index s _ _
  | call s _ _ | new s _ _ | paren s _ | array s _ | object s _ | property s _ _ _ | spread s _
  | hole s | func s _ _ | param s _ _ | rest s _ | unary s _ _ | binary s _ _ _ | assign s _ _
  | sequence s _ | shorthandDefault s _ _ | arrowHead s _ | compound s _ => s

/-- The dotted name an expression spells: names and `this`, plain members, parentheses aside. -/
def dottedName? : Node → Option String
  | name _ text => some text
  | this _ => some "this"
  | member _ o p => (dottedName? o).map fun base => base ++ "." ++ p
  | paren _ inner => dottedName? inner
  | _ => none

def stringValue? : Node → Option String
  | string _ value => some value
  | _ => none

def boolValue? : Node → Option Bool
  | boolean _ value => some value
  | _ => none

def isPlain : Node → Bool
  | spread .. | hole .. => false
  | _ => true

/-! ## Patterns -/

def isSimpleTarget : Node → Bool
  | name .. | member .. | index .. => true
  | paren _ inner => isSimpleTarget inner
  | _ => false

mutual

def asTarget? : Node → Option Node
  | array s items => (asTargetItems? items).map (array s)
  | object s properties => (asTargetProperties? properties).map (object s)
  | name s text => some (name s text)
  | member s o p => some (member s o p)
  | index s o ps => some (index s o ps)
  | paren s inner => if isSimpleTarget inner then some (paren s inner) else none
  | _ => none

def asTargetItems? : List Node → Option (List Node)
  | [] => some []
  | [spread s inner] => (asTarget? inner).map fun t => [spread s t]
  | hole s :: more => (asTargetItems? more).map (hole s :: ·)
  | assign s target value :: more => do
    let target ← asTarget? target
    let more ← asTargetItems? more
    return assign s target value :: more
  | item :: more => do
    let item ← asTarget? item
    let more ← asTargetItems? more
    return item :: more

def asTargetProperties? : List Node → Option (List Node)
  | [] => some []
  | [spread s inner] => if isSimpleTarget inner then some [spread s inner] else none
  | property s key computed (assign t target value) :: more => do
    let target ← asTarget? target
    let more ← asTargetProperties? more
    return property s key computed (assign t target value) :: more
  | property s key computed (shorthandDefault t target value) :: more => do
    let more ← asTargetProperties? more
    return property s key computed (assign t target value) :: more
  | property s key computed value :: more => do
    let value ← asTarget? value
    let more ← asTargetProperties? more
    return property s key computed value :: more
  | _ => none

end

mutual

def asBinding? : Node → Option (List Node)
  | name .. => some []
  | array _ items => asBindingItems? items
  | object _ properties => asBindingProperties? properties
  | _ => none

def asBindingItems? : List Node → Option (List Node)
  | [] => some []
  | [spread _ inner] => asBinding? inner
  | hole _ :: more => asBindingItems? more
  | assign _ target value :: more => do
    let parts ← asBinding? target
    let more ← asBindingItems? more
    return parts ++ value :: more
  | item :: more => do
    let parts ← asBinding? item
    let more ← asBindingItems? more
    return parts ++ more

def asBindingProperties? : List Node → Option (List Node)
  | [] => some []
  | [spread _ (name ..)] => some []
  | property _ _ computed (assign _ target value) :: more => do
    let parts ← asBinding? target
    let more ← asBindingProperties? more
    return computed ++ parts ++ value :: more
  | property _ _ computed (shorthandDefault _ _ value) :: more => do
    let more ← asBindingProperties? more
    return computed ++ value :: more
  | property _ _ computed value :: more => do
    let parts ← asBinding? value
    let more ← asBindingProperties? more
    return computed ++ parts ++ more
  | _ => none

end

def boundName? : Node → Option String
  | name _ text => some text
  | _ => none

def asParam? : Node → Option Node
  | assign s target value =>
    (asBinding? target).map fun parts => param s (boundName? target) (parts ++ [value])
  | item => (asBinding? item).map fun parts => param (span item) (boundName? item) parts

def asParams? : List Node → Option (List Node)
  | [] => some []
  | [spread s inner] => (asBinding? inner).map fun parts => [rest s parts]
  | item :: more => do
    let item ← asParam? item
    let more ← asParams? more
    return item :: more

/-! ## Forms that are left over -/

mutual

def isComplete : Node → Bool
  | shorthandDefault .. | arrowHead .. => false
  | name .. | this .. | string .. | number .. | boolean .. | null .. | hole .. => true
  | member _ o _ | paren _ o | spread _ o | unary _ _ o => isComplete o
  | index _ o parts | call _ o parts | new _ o parts => isComplete o && areComplete parts
  | property _ _ parts o => isComplete o && areComplete parts
  | array _ parts | object _ parts | param _ _ parts | rest _ parts | sequence _ parts
  | compound _ parts => areComplete parts
  | func _ params body => areComplete params && areComplete body
  | binary _ _ l r | assign _ l r => isComplete l && isComplete r

def areComplete : List Node → Bool
  | [] => true
  | n :: more => isComplete n && areComplete more

end

end Node

end ClassForge.Script
