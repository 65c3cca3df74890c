import ClassForge.Json.Basic
import ClassForge.Script.Program

/-!
# Annotations

The value of an annotation from its source text: literals, arrays and objects of them, and `new`
expressions with such arguments have one, anything else has none.
-/

namespace ClassForge.Annotation

open Script (Node)

def numberValue? (x : Binary64) : Option Json :=
  match x.toInt? with
  | some n => if n.natAbs < Nat.pow 2 53 then some (.int n) else some (.float x)
  | none => if x.isFinite then some (.float x) else none

mutual

def value? : Node → Option Json
  | .paren _ inner => value? inner
  | .string _ s => some (.string s)
  | .number _ x => numberValue? x
  | .boolean _ b => some (.bool b)
  | .null _ => some .null
  | .unary _ "-" (.number _ x) => numberValue? x.neg
  | .array _ items => (values? items).map .array
  | .object _ properties => (fields? properties).map fun l => (Json.object l).canonical
  | .new _ callee args => do
    let name ← callee.dottedName?
    let args ← values? args
    return .object [("$new", .string name), ("args", .array args)]
  | _ => none

/-- The values of expressions; places without a value and spread ones have none. -/
def values? : List Node → Option (List Json)
  | [] => some []
  | .hole _ :: _ => none
  | .spread _ _ :: _ => none
  | item :: rest => do
    let v ← value? item
    let vs ← values? rest
    return v :: vs

def fields? : List Node → Option (List (String × Json))
  | [] => some []
  | .property _ (some key) _ value :: rest => do
    let v ← value? value
    let vs ← fields? rest
    return (key, v) :: vs
  | _ => none

end

def evaluate (text : String) : Option Json := do
  let program ← Script.Program.parse? ("(" ++ text ++ ");")
  let first ← program.statements.head?
  value? first

end ClassForge.Annotation
