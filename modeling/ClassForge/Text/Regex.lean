/-!
# Regular expressions

Expressions of characters, of `.` for any character of a line, of `*` after either, and of the anchors
`^` and `$`. What else expressions can hold is refused here.
-/

namespace ClassForge.Text

inductive Regex.Item where
  | start
  | stop
  | one (admits : Char → Bool)
  | many (admits : Char → Bool)

abbrev Regex := List Regex.Item

namespace Regex

def special : List Char := "\\.+*?()|[]\x7b\x7d^$#&-~".toList

def escape (text : List Char) : List Char :=
  text.flatMap fun c => if c ∈ special then ['\\', c] else [c]

def char (c : Char) : Item := .one (c == ·)

def onLine (c : Char) : Bool := c != '\n'

/-- The items of an expression, after those that have been read, last ones first. -/
def compile? (done : Regex) : List Char → Option Regex
  | [] => some done.reverse
  | '^' :: rest => compile? (.start :: done) rest
  | '$' :: rest => compile? (.stop :: done) rest
  | '.' :: rest => compile? (.one onLine :: done) rest
  | '*' :: rest =>
    match done with
    | .one admits :: done | .many admits :: done => compile? (.many admits :: done) rest
    | _ => none
  | '\\' :: c :: rest => if c ∈ special then compile? (char c :: done) rest else none
  | c :: rest => if c ∈ special then none else compile? (char c :: done) rest

/-- Any number of characters, and then what comes next. The flag says whether this is the start of the
whole text. -/
def repeated (admits : Char → Bool) (next : Bool → List Char → Bool) : Bool → List Char → Bool
  | atStart, [] => next atStart []
  | atStart, c :: text => next atStart (c :: text) || admits c && repeated admits next false text

/-- Whether items stand for the beginning of a text. -/
def matchesHere : Regex → Bool → List Char → Bool
  | [], _, _ => true
  | .start :: items, atStart, text => atStart && matchesHere items atStart text
  | .stop :: items, atStart, text => text.isEmpty && matchesHere items atStart text
  | .one _ :: _, _, [] => false
  | .one admits :: items, _, c :: text => admits c && matchesHere items false text
  | .many admits :: items, atStart, text => repeated admits (matchesHere items) atStart text

/-- Whether items stand for some part of a text. -/
def isMatch (items : Regex) (text : List Char) : Bool :=
  repeated (fun _ => true) (matchesHere items) true text

end Regex

end ClassForge.Text
