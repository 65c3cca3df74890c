import ClassForge.Script.Cursor

/-!
# Expressions

Readers for the expressions, patterns, functions and classes of JavaScript outside modules. A reader
reads what lies inside it through `self`, which is given the kind of construct to read; tying `self`
to the readers themselves is left to the program's reader.
-/

namespace ClassForge.Script

structure Context where
  inOp : Bool := true
  yielding : Bool := false
  awaiting : Bool := false
  /-- Whether a function can be left by `return`. -/
  returning : Bool := false

namespace Context

def withIn (ctx : Context) : Context := { ctx with inOp := true }

def ofFunction (asynchronous generator : Bool) : Context :=
  { yielding := generator, awaiting := asynchronous, returning := true }

end Context

inductive Goal where
  | expression (ctx : Context)
  | assignment (ctx : Context)
  | binary (ctx : Context) (level : Nat)
  | unary (ctx : Context)
  | newExpression (ctx : Context)
  | leftHandSide (ctx : Context)
  /-- A pattern of bound names. -/
  | binding (ctx : Context)
  | statement (ctx : Context) (single : Bool)

namespace Grammar

open Reader

variable (self : Goal → Reader Node)

/-! ## Names -/

def reserved : List String := [
  "break", "case", "catch", "class", "const", "continue", "debugger", "default", "delete", "do",
  "else", "enum", "export", "extends", "false", "finally", "for", "function", "if", "import", "in",
  "instanceof", "new", "null", "return", "super", "switch", "this", "throw", "true", "try",
  "typeof", "var", "void", "while", "with"]

def nameOf? (ctx : Context) : Token → Option String
  | .word text _ =>
    if reserved.contains text || (text = "yield" && ctx.yielding) || (text = "await" && ctx.awaiting)
    then none else some text
  | _ => none

def identifier (ctx : Context) : Reader String := do
  match nameOf? ctx (← get).token with
  | some text =>
    advance
    return text
  | none => failure

/-! ## Lists -/

/-- Passes a comma, unless the list ends here. -/
def comma (close : String) : Reader Unit := do
  unless ← eatMark "," do
    require (← atMark close)

def spreadable (ctx : Context) : Reader Node := do
  let start ← startPos
  if ← eatMark "..." then
    let inner ← self (.assignment ctx.withIn)
    return .spread (← spanFrom start) inner
  else self (.assignment ctx.withIn)

def arguments (ctx : Context) : Reader (List Node) := do
  expectMark "("
  let args ← collect do
    if ← atMark ")" then return none
    let arg ← spreadable self ctx
    comma ")"
    return some arg
  expectMark ")"
  return args

/-- Reads an array. A comma between a spread item and the end stands for a place without a value, so
that such an array is no pattern. -/
def array (ctx : Context) : Reader Node := do
  let start ← startPos
  expectMark "["
  let items ← collect do
    if ← atMark "]" then return none
    let place ← startPos
    if ← eatMark "," then return some [Node.hole ⟨place, place⟩]
    let item ← spreadable self ctx
    let place ← startPos
    let divided ← atMark ","
    comma "]"
    if divided && !item.isPlain && (← atMark "]") then return some [item, .hole ⟨place, place⟩]
    return some [item]
  expectMark "]"
  return .array (← spanFrom start) items.flatten

/-! ## Templates and regular expressions -/

def reread (read : Nat → Nat → List Char → Option (Token × Nat × List Char)) : Reader Unit :=
  fun c => (c.reread read).map fun c => ((), c)

def templateParts (ctx : Context) (tagged : Bool) : Reader (List Node) := do
  let parts ← collect do
    match (← get).token with
    | .template valid last =>
      require (valid || tagged)
      if last then return none
      advance
      let part ← self (.expression ctx.withIn)
      require (← atMark "\x7d")
      reread fun fuel pos cs => Token.templateBody fuel pos true cs
      return some part
    | _ => failure
  advance
  return parts

def regex : Reader Node := do
  reread Token.regexRest
  let span := (← get).span
  advance
  return .compound span []

/-! ## Functions -/

/-- The name a pattern binds, if it is a single one. -/
def boundOf : Node → Option String
  | .param _ bound _ => bound
  | _ => none

def partsOf : Node → List Node
  | .param _ _ parts => parts
  | _ => []

def bindingWithDefault (ctx : Context) : Reader Node := do
  let start ← startPos
  let p ← self (.binding ctx)
  if ← eatMark "=" then
    let value ← self (.assignment ctx.withIn)
    return .param (← spanFrom start) (boundOf p) (partsOf p ++ [value])
  else return p

def params (ctx : Context) : Reader (List Node) := do
  expectMark "("
  let items ← collect do
    if ← atMark ")" then return none
    let start ← startPos
    if ← eatMark "..." then
      let p ← self (.binding ctx)
      require (← atMark ")")
      return some (.rest (← spanFrom start) (partsOf p))
    let p ← bindingWithDefault self ctx
    comma ")"
    return some p
  expectMark ")"
  return items

def block (ctx : Context) : Reader (List Node) := do
  expectMark "\x7b"
  let statements ← collect do
    if ← atMark "\x7d" then return none
    return some (← self (.statement ctx false))
  expectMark "\x7d"
  return statements

def functionRest (asynchronous generator : Bool) (start : Nat) : Reader Node := do
  let ctx := Context.ofFunction asynchronous generator
  let params ← params self ctx
  let body ← block self ctx
  return .func (← spanFrom start) params body

/-- Reads a function after its first word; it may have a name. -/
def functionExpression (asynchronous : Bool) (start : Nat) : Reader Node := do
  let generator ← eatMark "*"
  unless ← atMark "(" do
    discard (identifier { yielding := generator, awaiting := asynchronous })
  functionRest self asynchronous generator start

def isRest : Node → Bool
  | .rest .. => true
  | _ => false

def fitsAccessor (reads : Bool) : Node → Bool
  | .func _ params _ =>
    if reads then params.isEmpty else params.length = 1 && !params.any isRest
  | _ => false

/-! ## Properties -/

/-- The key of a property: its name if it is written out, and the parts of a computed one. A key
that is a plain word can stand for the property's value too. -/
structure Key where
  name : Option String := none
  computed : List Node := []
  word : Option Token := none

def key (ctx : Context) : Reader Key := do
  let c ← get
  match c.token with
  | .word text _ =>
    advance
    return { name := some text, word := some c.token }
  | .string value =>
    advance
    return { name := some value }
  | .number _ | .bigint =>
    advance
    return {}
  | .mark "[" =>
    advance
    let e ← self (.assignment ctx.withIn)
    expectMark "]"
    return { name := e.stringValue?, computed := [e] }
  | _ => failure

def endsKey (c : Cursor) : Bool :=
  [",", ":", "(", "\x7d", "=", ";"].any c.isMark || c.token == .eof

def method (ctx : Context) (asynchronous generator : Bool) (start : Nat) : Reader Node := do
  let k ← key self ctx
  let value ← functionRest self asynchronous generator (← startPos)
  return .property (← spanFrom start) k.name k.computed value

def accessor (ctx : Context) (reads : Bool) (start : Nat) : Reader Node := do
  let k ← key self ctx
  let value ← functionRest self false false (← startPos)
  require (fitsAccessor reads value)
  return .property (← spanFrom start) k.name k.computed value

def plainProperty (ctx : Context) (start : Nat) : Reader Node := do
  let span := (← get).span
  let k ← key self ctx
  if ← atMark "(" then
    let value ← functionRest self false false (← startPos)
    return .property (← spanFrom start) k.name k.computed value
  else if ← eatMark ":" then
    let value ← self (.assignment ctx.withIn)
    return .property (← spanFrom start) k.name k.computed value
  else
    match k.word.bind (nameOf? ctx) with
    | none => failure
    | some text =>
      if ← eatMark "=" then
        let value ← self (.assignment ctx.withIn)
        let span' ← spanFrom start
        return .property span' k.name [] (.shorthandDefault span' (.name span text) value)
      else return .property span k.name [] (.name span text)

def objectProperty (ctx : Context) : Reader Node := do
  let c ← get
  let start := c.span.start
  if ← eatMark "..." then
    let inner ← self (.assignment ctx.withIn)
    return .spread (← spanFrom start) inner
  if ← eatMark "*" then return ← method self ctx false true start
  if c.isWord "async" || c.isWord "get" || c.isWord "set" then
    let next ← peek
    if !endsKey next then
      if c.isWord "async" then
        if !next.newLine then
          advance
          let generator ← eatMark "*"
          return ← method self ctx true generator start
      else
        advance
        return ← accessor self ctx (c.isWord "get") start
  plainProperty self ctx start

def object (ctx : Context) : Reader Node := do
  let start ← startPos
  expectMark "\x7b"
  let properties ← collect do
    if ← atMark "\x7d" then return none
    let p ← objectProperty self ctx
    comma "\x7d"
    return some p
  expectMark "\x7d"
  return .object (← spanFrom start) properties

/-! ## Patterns -/

def arrayPattern (ctx : Context) : Reader (List Node) := do
  expectMark "["
  let items ← collect do
    if ← atMark "]" then return none
    if ← eatMark "," then return some []
    if ← eatMark "..." then
      let p ← self (.binding ctx)
      require (← atMark "]")
      return some (partsOf p)
    let p ← bindingWithDefault self ctx
    comma "]"
    return some (partsOf p)
  expectMark "]"
  return items.flatten

def patternProperty (ctx : Context) : Reader (List Node) := do
  let k ← key self ctx
  if ← eatMark ":" then
    let p ← bindingWithDefault self ctx
    return k.computed ++ partsOf p
  require (k.word.bind (nameOf? ctx)).isSome
  if ← eatMark "=" then
    let value ← self (.assignment ctx.withIn)
    return [value]
  else return []

def objectPattern (ctx : Context) : Reader (List Node) := do
  expectMark "\x7b"
  let properties ← collect do
    if ← atMark "\x7d" then return none
    if ← eatMark "..." then
      discard (identifier ctx)
      require (← atMark "\x7d")
      return some []
    let parts ← patternProperty self ctx
    comma "\x7d"
    return some parts
  expectMark "\x7d"
  return properties.flatten

def binding (ctx : Context) : Reader Node := do
  let start ← startPos
  if ← atMark "[" then
    let parts ← arrayPattern self ctx
    return .param (← spanFrom start) none parts
  else if ← atMark "\x7b" then
    let parts ← objectPattern self ctx
    return .param (← spanFrom start) none parts
  else
    let text ← identifier ctx
    return .param (← spanFrom start) (some text) []

/-! ## Classes -/

def decorators (ctx : Context) : Reader (List Node) :=
  collect do
    if ← eatMark "@" then return some (← self (.leftHandSide ctx))
    else return none

def elementKey (ctx : Context) : Reader Key := do
  match (← get).token with
  | .privateName =>
    advance
    return {}
  | _ => key self ctx

def endsElementKey (c : Cursor) : Bool :=
  ["(", "=", ";", "\x7d"].any c.isMark || c.token == .eof

def elementRest (k : Key) : Reader (List Node) := do
  if ← atMark "(" then
    let value ← functionRest self false false (← startPos)
    return k.computed ++ [value]
  let inner : Context := {}
  let value ← if ← eatMark "=" then
      let v ← self (.assignment inner)
      pure [v]
    else pure []
  endStatement
  return k.computed ++ value

/-- Reads a class element without decorators and `static`. -/
def element (ctx : Context) : Reader (List Node) := do
  let c ← get
  if ← eatMark "*" then
    let k ← elementKey self ctx
    let value ← functionRest self false true (← startPos)
    return k.computed ++ [value]
  if c.isWord "async" || c.isWord "get" || c.isWord "set" || c.isWord "accessor" then
    let next ← peek
    if !endsElementKey next then
      if c.isWord "async" then
        if !next.newLine then
          advance
          let generator ← eatMark "*"
          let k ← elementKey self ctx
          let value ← functionRest self true generator (← startPos)
          return k.computed ++ [value]
      else if c.isWord "accessor" then
        if !next.newLine then
          advance
          return ← elementRest self (← elementKey self ctx)
      else if !(next.isMark "*") then
        advance
        let k ← elementKey self ctx
        let value ← functionRest self false false (← startPos)
        require (fitsAccessor (c.isWord "get") value)
        return k.computed ++ [value]
  elementRest self (← elementKey self ctx)

def classElement (ctx : Context) : Reader (List Node) := do
  if ← eatMark ";" then return []
  let before ← decorators self ctx
  let c ← get
  if c.isWord "static" then
    let next ← peek
    if next.isMark "\x7b" then
      advance
      let body ← block self { awaiting := true }
      return before ++ body
    if !endsElementKey next then
      advance
      let parts ← element self ctx
      return before ++ parts
  let parts ← element self ctx
  return before ++ parts

def classRest (ctx : Context) (start : Nat) (before : List Node) : Reader Node := do
  let c ← get
  if !c.isMark "\x7b" && !c.isWord "extends" then
    discard (identifier ctx)
  let heritage ← if ← eatWord "extends" then
      let e ← self (.leftHandSide ctx)
      pure [e]
    else pure []
  expectMark "\x7b"
  let elements ← collect do
    if ← atMark "\x7d" then return none
    return some (← classElement self ctx)
  expectMark "\x7d"
  return .compound (← spanFrom start) (before ++ heritage ++ elements.flatten)

/-! ## Primary expressions -/

def parenthesized (ctx : Context) : Reader Node := do
  let start ← startPos
  expectMark "("
  let items ← collect do
    if ← atMark ")" then return none
    let item ← spreadable self ctx
    if item.isPlain then
      if ← eatMark "," then return some (item, ← atMark ")")
    require (← atMark ")")
    return some (item, false)
  expectMark ")"
  let span ← spanFrom start
  let nodes := items.map Prod.fst
  if nodes.isEmpty || items.any Prod.snd || !nodes.all Node.isPlain then
    return .arrowHead span nodes
  match nodes with
  | [one] => return .paren span one
  | many =>
    let first := (many.head?.map fun n => n.span.start).getD 0
    let last := (many.getLast?.map fun n => n.span.stop).getD 0
    return .paren span (.sequence ⟨first, last⟩ many)

def importExpression (ctx : Context) (start : Nat) : Reader Node := do
  if ← eatMark "." then
    let c ← get
    if c.isWord "meta" then
      advance
      return .compound (← spanFrom start) []
    require (c.isWord "source" || c.isWord "defer")
    advance
  let args ← arguments self ctx
  require (args.length = 1 || args.length = 2)
  require (args.all Node.isPlain)
  return .compound (← spanFrom start) args

def wordExpression (ctx : Context) (c : Cursor) : Reader Node := do
  let start := c.span.start
  if c.isWord "this" then
    advance
    return .this c.span
  if c.isWord "null" then
    advance
    return .null c.span
  if c.isWord "true" then
    advance
    return .boolean c.span true
  if c.isWord "false" then
    advance
    return .boolean c.span false
  if c.isWord "function" then
    advance
    return ← functionExpression self false start
  if c.isWord "class" then
    advance
    return ← classRest self ctx start []
  if c.isWord "super" then
    advance
    let d ← get
    require (d.isMark "." || d.isMark "(" || d.isMark "[")
    return .compound c.span []
  if c.isWord "import" then
    advance
    return ← importExpression self ctx start
  if c.isWord "async" then
    let next ← peek
    if next.isWord "function" && !next.newLine then
      advance
      advance
      return ← functionExpression self true start
  let text ← identifier ctx
  return .name c.span text

def primary (ctx : Context) : Reader Node := do
  let c ← get
  match c.token with
  | .word .. => wordExpression self ctx c
  | .string value =>
    advance
    return .string c.span value
  | .number value =>
    advance
    return .number c.span value
  | .bigint =>
    advance
    return .compound c.span []
  | .template .. =>
    let parts ← templateParts self ctx false
    return .compound (← spanFrom c.span.start) parts
  | .privateName =>
    advance
    require (ctx.inOp && (← atWord "in"))
    return .compound c.span []
  | .mark "(" => parenthesized self ctx
  | .mark "[" => array self ctx
  | .mark "\x7b" => object self ctx
  | .mark "/" => regex
  | .mark "/=" => regex
  | .mark "@" =>
    let before ← decorators self ctx
    expectWord "class"
    classRest self ctx c.span.start before
  | _ => failure

/-! ## Members and calls -/

def memberName (start : Nat) (base : Node) : Reader Node := do
  match (← get).token with
  | .word text _ =>
    advance
    return .member (← spanFrom start) base text
  | .privateName =>
    advance
    return .index (← spanFrom start) base []
  | _ => failure

def bracketMember (ctx : Context) (start : Nat) (base : Node) : Reader Node := do
  expectMark "["
  let e ← self (.expression ctx.withIn)
  expectMark "]"
  return .index (← spanFrom start) base [e]

/-- Reads members, calls and tagged templates after an expression. The callee of `new` has no calls
and no optional members; a chain with optional members is one construct of its own. -/
def memberTail (ctx : Context) (calls : Bool) (start : Nat) :
    (fuel : Nat) → (base : Node) → (chained : Bool) → Reader Node
  | 0, _, _ => failure
  | fuel + 1, base, chained => do
    match (← get).token with
    | .mark "." =>
      advance
      let e ← memberName start base
      memberTail ctx calls start fuel e chained
    | .mark "?." =>
      require calls
      advance
      let c ← get
      if c.isMark "(" then
        let args ← arguments self ctx
        memberTail ctx calls start fuel (.call (← spanFrom start) base args) true
      else if c.isMark "[" then
        let e ← bracketMember self ctx start base
        memberTail ctx calls start fuel e true
      else
        let e ← memberName start base
        memberTail ctx calls start fuel e true
    | .mark "[" =>
      let e ← bracketMember self ctx start base
      memberTail ctx calls start fuel e chained
    | .mark "(" =>
      if calls then
        let args ← arguments self ctx
        memberTail ctx calls start fuel (.call (← spanFrom start) base args) chained
      else return base
    | .template .. =>
      require !chained
      let parts ← templateParts self ctx true
      memberTail ctx calls start fuel (.compound (← spanFrom start) (base :: parts)) chained
    | _ =>
      if chained then return .compound (← spanFrom start) [base] else return base

def newExpression (ctx : Context) : Reader Node := do
  let start ← startPos
  expectWord "new"
  if ← eatMark "." then
    expectWord "target"
    return .compound (← spanFrom start) []
  let c ← get
  if c.isWord "import" then
    require !(← peek).isMark "("
  let base ← if c.isWord "new" then self (.newExpression ctx) else primary self ctx
  let callee ← memberTail self ctx false c.span.start c.size base false
  let args ← if ← atMark "(" then arguments self ctx else pure []
  return .new (← spanFrom start) callee args

def leftHandSide (ctx : Context) : Reader Node := do
  let c ← get
  let base ← if c.isWord "new" then newExpression self ctx else primary self ctx
  memberTail self ctx true c.span.start c.size base false

/-! ## Operators -/

def unary (ctx : Context) : Reader Node := do
  let c ← get
  let start := c.span.start
  let op? : Option String := match c.token with
    | .mark m => if ["+", "-", "~", "!"].contains m then some m else none
    | .word w false =>
      if ["delete", "typeof", "void"].contains w || (w = "await" && ctx.awaiting) then some w else none
    | _ => none
  match op? with
  | some op =>
    advance
    let e ← self (.unary ctx)
    return .unary (← spanFrom start) op e
  | none =>
    if c.isMark "++" || c.isMark "--" then
      advance
      let e ← self (.unary ctx)
      require e.isSimpleTarget
      return .compound (← spanFrom start) [e]
    let e ← leftHandSide self ctx
    let d ← get
    if (d.isMark "++" || d.isMark "--") && !d.newLine then
      require e.isSimpleTarget
      advance
      return .compound (← spanFrom start) [e]
    return e

def levels : List (String × Nat) := [
  ("??", 1), ("||", 2), ("&&", 3), ("|", 4), ("^", 5), ("&", 6),
  ("==", 7), ("!=", 7), ("===", 7), ("!==", 7),
  ("<", 8), (">", 8), ("<=", 8), (">=", 8), ("instanceof", 8), ("in", 8),
  ("<<", 9), (">>", 9), (">>>", 9), ("+", 10), ("-", 10), ("*", 11), ("/", 11), ("%", 11), ("**", 12)]

def operator? (ctx : Context) : Token → Option (String × Nat)
  | .mark m => (levels.lookup m).map fun l => (m, l)
  | .word w false =>
    if w = "instanceof" || (w = "in" && ctx.inOp) then (levels.lookup w).map fun l => (w, l) else none
  | _ => none

def operatorOf? : Node → Option String
  | .binary _ op _ _ => some op
  | _ => none

def isUnary : Node → Bool
  | .unary .. => true
  | _ => false

/-- Whether two operands can stand beside an operator: `??` does not mix with `||` and `&&`, and the
left operand of `**` has no operator in front. -/
def fitsOperator (op : String) (left right : Node) : Bool :=
  let mixes (a : String) : Bool := a = "||" || a = "&&"
  let operands := [operatorOf? left, operatorOf? right]
  if op = "??" then !operands.any fun o => o.any mixes
  else if mixes op then !operands.any fun o => o.any (· = "??")
  else if op = "**" then !isUnary left
  else true

def binaryTail (ctx : Context) (level : Nat) : (fuel : Nat) → Node → Reader Node
  | 0, _ => failure
  | fuel + 1, left => do
    match operator? ctx (← get).token with
    | some (op, l) =>
      if level < l then
        advance
        let right ← self (.binary ctx (if op = "**" then l - 1 else l))
        require (fitsOperator op left right)
        binaryTail ctx level fuel (.binary ⟨left.span.start, right.span.stop⟩ op left right)
      else return left
    | none => return left

def binary (ctx : Context) (level : Nat) : Reader Node := do
  let c ← get
  let left ← unary self ctx
  binaryTail self ctx level c.size left

def conditional (ctx : Context) : Reader Node := do
  let start ← startPos
  let test ← binary self ctx 0
  if ← eatMark "?" then
    let yes ← self (.assignment ctx.withIn)
    expectMark ":"
    let no ← self (.assignment ctx)
    return .compound (← spanFrom start) [test, yes, no]
  else return test

/-! ## Arrow functions and assignments -/

def arrowBody (ctx : Context) (asynchronous : Bool) (start : Nat) (params : List Node) :
    Reader Node := do
  require !(← get).newLine
  expectMark "=>"
  if ← atMark "\x7b" then
    let body ← block self (Context.ofFunction asynchronous false)
    return .func (← spanFrom start) params body
  else
    let inner : Context := { inOp := ctx.inOp, awaiting := asynchronous, returning := false }
    let e ← self (.assignment inner)
    return .func (← spanFrom start) params [e]

def arrowHead? (asyncCall : Bool) : Node → Option (Bool × List Node)
  | .arrowHead _ items => (Node.asParams? items).map fun ps => (false, ps)
  | .paren _ (.sequence _ items) => (Node.asParams? items).map fun ps => (false, ps)
  | .paren _ item => (Node.asParams? [item]).map fun ps => (false, ps)
  | .call _ (.name _ "async") args =>
    if asyncCall then (Node.asParams? args).map fun ps => (true, ps) else none
  | _ => none

def yieldExpression (ctx : Context) : Reader Node := do
  let start ← startPos
  expectWord "yield"
  let c ← get
  let ends := c.newLine || c.token == .eof || c.isWord "in" || c.isWord "of" ||
    [")", "]", "\x7d", ",", ";", ":"].any c.isMark
  if ends then return .compound (← spanFrom start) []
  discard (eatMark "*")
  let e ← self (.assignment ctx)
  return .compound (← spanFrom start) [e]

def computedAssignments : List String := [
  "+=", "-=", "*=", "/=", "%=", "**=", "<<=", ">>=", ">>>=", "&=", "|=", "^=", "&&=", "||=", "??="]

def plainArrow? (ctx : Context) : Reader (Option Node) := do
  let c ← get
  match nameOf? ctx c.token with
  | none => return none
  | some text =>
    let next ← peek
    if next.isMark "=>" && !next.newLine then
      advance
      return some (← arrowBody self ctx false c.span.start [.param c.span (some text) []])
    if c.isWord "async" && !next.newLine then
      match nameOf? { ctx with awaiting := true } next.token with
      | none => return none
      | some text =>
        match next.next with
        | none => return none
        | some after =>
          if after.isMark "=>" && !after.newLine then
            advance
            advance
            return some (← arrowBody self ctx true c.span.start [.param next.span (some text) []])
          else return none
    else return none

def assignment (ctx : Context) : Reader Node := do
  let c ← get
  let start := c.span.start
  if ctx.yielding && c.isWord "yield" then return ← yieldExpression self ctx
  if let some f ← plainArrow? self ctx then return f
  let asyncCall ← if c.isWord "async" then
      let next ← peek
      pure (next.isMark "(" && !next.newLine)
    else pure false
  let e ← conditional self ctx
  let d ← get
  if d.isMark "=>" then
    match arrowHead? asyncCall e with
    | some (asynchronous, params) => return ← arrowBody self ctx asynchronous start params
    | none => failure
  if d.isMark "=" then
    match e.asTarget? with
    | none => failure
    | some target =>
      advance
      let value ← self (.assignment ctx)
      return .assign (← spanFrom start) target value
  if computedAssignments.any d.isMark then
    require e.isSimpleTarget
    advance
    let value ← self (.assignment ctx)
    return .compound (← spanFrom start) [e, value]
  return e

def expression (ctx : Context) : Reader Node := do
  let start ← startPos
  let first ← self (.assignment ctx)
  if ← atMark "," then
    let more ← collect do
      if ← eatMark "," then return some (← self (.assignment ctx))
      else return none
    return .sequence (← spanFrom start) (first :: more)
  else return first

end Grammar

end ClassForge.Script
