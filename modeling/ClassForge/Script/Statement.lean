import ClassForge.Script.Grammar

/-!
# Statements

Readers for statements, declarations, imports and exports. A statement is a compound of the
expressions and statements in it; a statement that is an expression is that expression.
-/

namespace ClassForge.Script.Grammar

open Reader

variable (self : Goal → Reader Node)

/-! ## Declarations -/

def bindsName (p : Node) : Bool := (boundOf p).isSome

/-- Reads the declarations after `var`, `let` or `const`. Unless they head a loop, constants and
patterns need a value. The second component says whether every one has what it needs. -/
def declarations (ctx : Context) (constant : Bool) : Reader (List Node × Bool) := do
  let first ← one
  let more ← collect do
    if ← eatMark "," then return some (← one)
    else return none
  let all := first :: more
  return (all.flatMap Prod.fst, all.all Prod.snd)
where
  one : Reader (List Node × Bool) := do
    let p ← self (.binding ctx)
    if ← eatMark "=" then
      let value ← self (.assignment ctx)
      return (partsOf p ++ [value], true)
    else return (partsOf p, bindsName p && !constant)

/-- Whether a token starts a declaration after the word `let`. -/
def startsBinding (ctx : Context) (c : Cursor) : Bool :=
  c.isMark "[" || c.isMark "\x7b" || (nameOf? ctx c.token).isSome

/-- Whether a declaration starts here: `var`, `let` or `const`, the last two being lexical. -/
def atDeclaration (ctx : Context) : Reader Bool := do
  let c ← get
  if c.isWord "var" || c.isWord "const" then return true
  if c.isWord "let" then
    let next ← peek
    return startsBinding ctx next && !(next.isWord "in" || next.isWord "instanceof")
  if c.isWord "using" then
    let next ← peek
    return !next.newLine && !next.isWord "in" && !next.isWord "of" && (nameOf? ctx next.token).isSome
  return false

def declarationStatement (ctx : Context) : Reader Node := do
  let c ← get
  advance
  let (parts, complete) ← declarations self ctx (c.isWord "const" || c.isWord "using")
  require complete
  endStatement
  return .compound (← spanFrom c.span.start) parts

def functionDeclaration (ctx : Context) (asynchronous : Bool) (start : Nat) : Reader Node := do
  expectWord "function"
  let generator ← eatMark "*"
  discard (identifier ctx)
  functionRest self asynchronous generator start

def classDeclaration (ctx : Context) (start : Nat) (before : List Node) : Reader Node := do
  expectWord "class"
  let c ← get
  require !(c.isMark "\x7b" || c.isWord "extends")
  classRest self ctx start before

/-! ## Compound statements -/

def parenthesizedTest (ctx : Context) : Reader Node := do
  expectMark "("
  let e ← self (.expression ctx.withIn)
  expectMark ")"
  return e

def countingHead (ctx : Context) (first : List Node) : Reader (List Node) := do
  expectMark ";"
  let test ← if ← atMark ";" then pure [] else pure [← self (.expression ctx.withIn)]
  expectMark ";"
  let step ← if ← atMark ")" then pure [] else pure [← self (.expression ctx.withIn)]
  return first ++ test ++ step

/-- Reads what a loop goes through, after its first part and `in` or `of`. -/
def iteratedHead (ctx : Context) (first : List Node) : Reader (List Node) := do
  if ← eatWord "in" then return first ++ [← self (.expression ctx.withIn)]
  expectWord "of"
  return first ++ [← self (.assignment ctx.withIn)]

/-- Reads the head of a loop. One that awaits goes through values with `of`, and only there the name
`async` can stand before `of`. -/
def loopHead (ctx : Context) (awaits : Bool) : Reader (List Node) := do
  let c ← get
  let inner := { ctx with inOp := false }
  let (first, target?, complete) ← if c.isMark ";" then pure ([], none, true)
    else if ← atDeclaration ctx then
      advance
      let (parts, complete) ← declarations self inner (c.isWord "const")
      pure (parts, some parts, complete)
    else
      let e ← self (.expression inner)
      pure ([e], e.asTarget?.map ([·]), true)
  if ← atWord "of" then
    require (awaits || !(c.isWord "async" && first.any (·.boundName?.isSome)))
  else require !awaits
  if (← atWord "in") || (← atWord "of") then
    match target? with
    | some target => iteratedHead self ctx target
    | none => failure
  else
    require complete
    countingHead self ctx first

/-- Reads a `for` loop after its first word. -/
def forStatement (ctx : Context) (start : Nat) : Reader Node := do
  let awaits ← if ctx.awaiting then eatWord "await" else pure false
  expectMark "("
  let head ← loopHead self ctx awaits
  expectMark ")"
  let body ← self (.statement ctx true)
  return .compound (← spanFrom start) (head ++ [body])

def switchCase (ctx : Context) : Reader (List Node) := do
  let test ← if ← eatWord "default" then pure []
    else
      expectWord "case"
      pure [← self (.expression ctx.withIn)]
  expectMark ":"
  let body ← collect do
    let c ← get
    if c.isWord "case" || c.isWord "default" || c.isMark "\x7d" then return none
    return some (← self (.statement ctx false))
  return test ++ body

def switchStatement (ctx : Context) (start : Nat) : Reader Node := do
  let subject ← parenthesizedTest self ctx
  expectMark "\x7b"
  let cases ← collect do
    if ← atMark "\x7d" then return none
    return some (← switchCase self ctx)
  expectMark "\x7d"
  return .compound (← spanFrom start) (subject :: cases.flatten)

def tryStatement (ctx : Context) (start : Nat) : Reader Node := do
  let body ← block self ctx
  let handler ← if ← eatWord "catch" then
      let bound ← if ← eatMark "(" then
          let p ← self (.binding ctx)
          expectMark ")"
          pure (partsOf p)
        else pure []
      let handler ← block self ctx
      pure (some (bound ++ handler))
    else pure none
  let final ← if ← eatWord "finally" then pure (some (← block self ctx)) else pure none
  require (handler.isSome || final.isSome)
  return .compound (← spanFrom start) (body ++ handler.getD [] ++ final.getD [])

/-- Reads a jump after its first word: it may name a label on the same line. -/
def jump (ctx : Context) (start : Nat) : Reader Node := do
  let c ← get
  if !c.newLine && (nameOf? ctx c.token).isSome then advance
  endStatement
  return .compound (← spanFrom start) []

/-! ## Imports and exports -/

def moduleName : Reader Unit := do
  match (← get).token with
  | .word .. => advance
  | .string _ => advance
  | _ => failure

def importAttributes : Reader Unit := do
  if (← eatWord "with") then
    expectMark "\x7b"
    discard <| collect (α := Unit) do
      if ← atMark "\x7d" then return none
      moduleName
      expectMark ":"
      moduleName
      comma "\x7d"
      return some ()
    expectMark "\x7d"

def moduleSource : Reader Unit := do
  match (← get).token with
  | .string _ => advance
  | _ => failure
  importAttributes

def specifiers : Reader (List (Span × Token)) := do
  expectMark "\x7b"
  let names ← collect do
    if ← atMark "\x7d" then return none
    let c ← get
    moduleName
    if ← eatWord "as" then moduleName
    comma "\x7d"
    return some (c.span, c.token)
  expectMark "\x7d"
  return names

def importDeclaration (ctx : Context) (start : Nat) : Reader Node := do
  match (← get).token with
  | .string _ => moduleSource
  | _ =>
    let named ← if ← atMark "\x7b" then pure false
      else if ← atMark "*" then pure false
      else
        discard (identifier ctx)
        pure true
    if !named || (← eatMark ",") then
      if ← eatMark "*" then
        expectWord "as"
        discard (identifier ctx)
      else discard specifiers
    expectWord "from"
    moduleSource
  endStatement
  return .compound (← spanFrom start) []

def exportedDeclaration (ctx : Context) (start : Nat) : Reader Node := do
  let c ← get
  if c.isWord "function" then return ← functionDeclaration self ctx false c.span.start
  if c.isWord "async" then
    advance
    return ← functionDeclaration self ctx true c.span.start
  if c.isWord "class" then return ← classDeclaration self ctx c.span.start []
  if c.isMark "@" then
    let before ← decorators self ctx
    return ← classDeclaration self ctx start before
  require (← atDeclaration ctx)
  declarationStatement self ctx

def defaultExport (ctx : Context) : Reader (List Node) := do
  let c ← get
  let next ← peek
  if c.isWord "function" || (c.isWord "async" && next.isWord "function" && !next.newLine) then
    let asynchronous ← eatWord "async"
    expectWord "function"
    return [← functionExpression self asynchronous c.span.start]
  if c.isWord "class" then
    advance
    return [← classRest self ctx c.span.start []]
  let e ← self (.assignment ctx.withIn)
  endStatement
  return [e]

def exportDeclaration (ctx : Context) (start : Nat) : Reader Node := do
  if ← eatWord "default" then
    let parts ← defaultExport self ctx
    return .compound (← spanFrom start) parts
  if ← eatMark "*" then
    if ← eatWord "as" then moduleName
    expectWord "from"
    moduleSource
    endStatement
    return .compound (← spanFrom start) []
  if ← atMark "\x7b" then
    let names ← specifiers
    let parts ← if ← eatWord "from" then
        moduleSource
        pure []
      else
        names.mapM fun (span, token) =>
          match nameOf? ctx token with
          | some text => pure (Node.name span text)
          | none => failure
    endStatement
    return .compound (← spanFrom start) parts
  let d ← exportedDeclaration self ctx start
  return .compound (← spanFrom start) [d]

/-! ## Statements -/

def plainStatement (ctx : Context) : Reader Node := do
  let c ← get
  if (nameOf? ctx c.token).isSome then
    let next ← peek
    if next.isMark ":" then
      advance
      advance
      return ← self (.statement ctx true)
  let e ← self (.expression ctx.withIn)
  endStatement
  return e

def wordStatement? (ctx : Context) (single : Bool) (c : Cursor) : Option (Reader Node) :=
  let start := c.span.start
  match c.token with
  | .word "if" false => some do
    advance
    let test ← parenthesizedTest self ctx
    let yes ← self (.statement ctx true)
    let no ← if ← eatWord "else" then pure [← self (.statement ctx true)] else pure []
    return .compound (← spanFrom start) (test :: yes :: no)
  | .word "while" false => some do
    advance
    let test ← parenthesizedTest self ctx
    let body ← self (.statement ctx true)
    return .compound (← spanFrom start) [test, body]
  | .word "do" false => some do
    advance
    let body ← self (.statement ctx true)
    expectWord "while"
    let test ← parenthesizedTest self ctx
    discard (eatMark ";")
    return .compound (← spanFrom start) [body, test]
  | .word "for" false => some do
    advance
    forStatement self ctx start
  | .word "switch" false => some do
    advance
    switchStatement self ctx start
  | .word "try" false => some do
    advance
    tryStatement self ctx start
  | .word "with" false => some do
    advance
    let subject ← parenthesizedTest self ctx
    let body ← self (.statement ctx true)
    return .compound (← spanFrom start) [subject, body]
  | .word "return" false => some do
    require ctx.returning
    advance
    let c ← get
    let value ← if c.isMark ";" || c.isMark "\x7d" || c.token == .eof || c.newLine then pure []
      else pure [← self (.expression ctx.withIn)]
    endStatement
    return .compound (← spanFrom start) value
  | .word "throw" false => some do
    advance
    require !(← get).newLine
    let e ← self (.expression ctx.withIn)
    endStatement
    return .compound (← spanFrom start) [e]
  | .word "break" false => some do
    advance
    jump ctx start
  | .word "continue" false => some do
    advance
    jump ctx start
  | .word "debugger" false => some do
    advance
    endStatement
    return .compound (← spanFrom start) []
  | .word "function" false => some do
    if single then require !(← peek).isMark "*"
    functionDeclaration self ctx false start
  | .word "class" false => some do
    require !single
    classDeclaration self ctx start []
  | _ => none

def statement (ctx : Context) (single : Bool) : Reader Node := do
  let c ← get
  let start := c.span.start
  match c.token with
  | .mark "\x7b" =>
    let body ← block self ctx
    return .compound (← spanFrom start) body
  | .mark ";" =>
    advance
    return .compound (← spanFrom start) []
  | .mark "@" =>
    let before ← decorators self ctx
    if ← atWord "export" then
      advance
      discard (eatWord "default")
    classDeclaration self ctx start before
  | .word .. =>
    match wordStatement? self ctx single c with
    | some reader => reader
    | none =>
      let next ← peek
      let isName := single && c.isWord "let" && !next.isMark "["
      if !isName && (← atDeclaration ctx) then
        require (!single || c.isWord "var")
        return ← declarationStatement self ctx
      if c.isWord "import" then
        if !(next.isMark "(" || next.isMark ".") then
          advance
          return ← importDeclaration ctx start
      if c.isWord "export" then
        advance
        return ← exportDeclaration self ctx start
      if c.isWord "async" && next.isWord "function" && !next.newLine then
        require !single
        advance
        return ← functionDeclaration self ctx true start
      plainStatement self ctx
  | _ => plainStatement self ctx

end ClassForge.Script.Grammar
