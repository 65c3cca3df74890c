import ClassForge.Script.Token

/-!
# Reading along a source text

A cursor stands at one token of a text. Readers move it; a reader that does not fit fails, and
failing anywhere fails the whole text.
-/

namespace ClassForge.Script

structure Cursor where
  /-- A bound on the length of every part of the text. -/
  size : Nat
  token : Token
  span : Span
  newLine : Bool
  here : List Char
  /-- The text after the token. -/
  rest : List Char
  before : Nat
  /-- The comments passed so far, the latest first. -/
  comments : List Span

abbrev Reader := StateT Cursor Option

namespace Cursor

def after (size before : Nat) (p : Passed) : Option Cursor := do
  let p ← pass size p
  let (token, stop, rest) ← Token.read size p.pos p.rest
  return { size, token, span := ⟨p.pos, stop⟩, newLine := p.newLine, here := p.rest, rest, before,
           comments := p.comments }

def next (c : Cursor) : Option Cursor :=
  after c.size c.span.stop ⟨c.span.stop, false, c.comments, c.rest⟩

def reread (c : Cursor) (read : Nat → Nat → List Char → Option (Token × Nat × List Char)) :
    Option Cursor := do
  let (token, stop, rest) ← read c.size (c.span.start + 1) (c.here.drop 1)
  return { c with token, span := ⟨c.span.start, stop⟩, rest }

/-- The cursor at the first token of a text; a line that starts with `#!` is passed. -/
def start (source : List Char) : Option Cursor :=
  let size := source.length + 8
  match source with
  | '#' :: '!' :: rest =>
    let (pos, rest) := passLine size 2 rest
    after size 0 ⟨pos, true, [], rest⟩
  | _ => after size 0 ⟨0, true, [], source⟩

def isMark (c : Cursor) (text : String) : Bool := c.token == .mark text

def isWord (c : Cursor) (text : String) : Bool := c.token == .word text false

end Cursor

namespace Reader

def advance : Reader Unit := fun c => (c.next).map fun c => ((), c)

def require (condition : Bool) : Reader Unit := fun c => if condition then some ((), c) else none

def atMark (text : String) : Reader Bool := return (← get).isMark text

def atWord (text : String) : Reader Bool := return (← get).isWord text

def eatMark (text : String) : Reader Bool := do
  if ← atMark text then
    advance
    return true
  else return false

def eatWord (text : String) : Reader Bool := do
  if ← atWord text then
    advance
    return true
  else return false

def expectMark (text : String) : Reader Unit := do
  require (← atMark text)
  advance

def expectWord (text : String) : Reader Unit := do
  require (← atWord text)
  advance

def peek : Reader Cursor := fun c => (c.next).map fun d => (d, c)

def startPos : Reader Nat := return (← get).span.start

/-- The stretch of text from a position up to the last token passed. -/
def spanFrom (start : Nat) : Reader Span := return ⟨start, (← get).before⟩

def endStatement : Reader Unit := do
  if ← eatMark ";" then return
  let c ← get
  require (c.isMark "\x7d" || c.token == .eof || c.newLine)

/-- Repeats a reader until it gives nothing more; the results in order. -/
def collect {α : Type} (one : Reader (Option α)) : Reader (List α) := do
  let bound := (← get).size
  go bound []
where
  go : Nat → List α → Reader (List α)
    | 0, _ => failure
    | fuel + 1, done => do
      match ← one with
      | some a => go fuel (a :: done)
      | none => return done.reverse

end Reader

end ClassForge.Script
