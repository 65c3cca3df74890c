import ClassForge.Script.Statement

/-!
# Reading programs

The reader of a whole program. Constructs inside constructs are read with one step less of a depth
that the length of the text bounds, so reading always ends.
-/

namespace ClassForge.Script

structure Program where
  statements : List Node
  comments : List Span

namespace Program

/-- Reads a construct nested at most some steps deep. -/
def readGoal : (depth : Nat) → Goal → Reader Node
  | 0, _ => failure
  | depth + 1, goal =>
    let self := readGoal depth
    match goal with
    | .expression ctx => Grammar.expression self ctx
    | .assignment ctx => Grammar.assignment self ctx
    | .binary ctx level => Grammar.binary self ctx level
    | .unary ctx => Grammar.unary self ctx
    | .newExpression ctx => Grammar.newExpression self ctx
    | .leftHandSide ctx => Grammar.leftHandSide self ctx
    | .binding ctx => Grammar.binding self ctx
    | .statement ctx single => Grammar.statement self ctx single

def readAll (depth : Nat) : Reader (List Node) :=
  Reader.collect do
    if (← get).token == .eof then return none
    return some (← readGoal depth (.statement {} false))

def parse? (source : String) : Option Program := do
  let text := source.toList
  let start ← Cursor.start text
  let (statements, final) ← (readAll (8 * text.length + 16)).run start
  if Node.areComplete statements then some { statements, comments := final.comments.reverse }
  else none

end Program

end ClassForge.Script
