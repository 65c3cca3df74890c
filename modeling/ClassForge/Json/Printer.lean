import ClassForge.Json.Basic
import ClassForge.Number.Shortest

/-!
# JSON text

Writing a value as text, either on one line or with two spaces of indentation a level. Only quotes,
backslashes and control characters are escaped.
-/

namespace ClassForge.Json

/-- The lower-case hexadecimal digit of a number below sixteen. -/
def hexDigit (n : Nat) : Char := if n < 10 then Char.ofNat (48 + n) else Char.ofNat (87 + n)

/-- A character inside a quoted text. -/
def escapeChar (c : Char) : List Char :=
  if c = '"' then ['\\', '"']
  else if c = '\\' then ['\\', '\\']
  else if c = '\n' then ['\\', 'n']
  else if c = '\r' then ['\\', 'r']
  else if c = '\t' then ['\\', 't']
  else if c.toNat = 8 then ['\\', 'b']
  else if c.toNat = 12 then ['\\', 'f']
  else if c.toNat < 32 then ['\\', 'u', '0', '0', hexDigit (c.toNat / 16), hexDigit (c.toNat % 16)]
  else [c]

def quote (s : String) : String :=
  String.ofList ('"' :: (s.toList.flatMap escapeChar ++ ['"']))

def floatText (x : Binary64) : String := if x.isFinite then x.text else "null"

mutual

def render : Json → String
  | .null => "null"
  | .bool b => if b then "true" else "false"
  | .int n => toString n
  | .float x => floatText x
  | .string s => quote s
  | .array items => "[" ++ String.intercalate "," (renderItems items) ++ "]"
  | .object fields => "\x7b" ++ String.intercalate "," (renderFields fields) ++ "\x7d"

def renderItems : List Json → List String
  | [] => []
  | v :: rest => render v :: renderItems rest

def renderFields : List (String × Json) → List String
  | [] => []
  | (k, v) :: rest => (quote k ++ ":" ++ render v) :: renderFields rest

end

def newLine (level : Nat) : String := String.ofList ('\n' :: List.replicate (2 * level) ' ')

mutual

def renderIndented (level : Nat) : Json → String
  | .array [] => "[]"
  | .array items =>
    let start := newLine (level + 1)
    "[" ++ start ++ String.intercalate ("," ++ start) (renderIndentedItems (level + 1) items) ++
      newLine level ++ "]"
  | .object [] => "\x7b\x7d"
  | .object fields =>
    let start := newLine (level + 1)
    "\x7b" ++ start ++ String.intercalate ("," ++ start) (renderIndentedFields (level + 1) fields) ++
      newLine level ++ "\x7d"
  | .null => "null"
  | .bool b => if b then "true" else "false"
  | .int n => toString n
  | .float x => floatText x
  | .string s => quote s

def renderIndentedItems (level : Nat) : List Json → List String
  | [] => []
  | v :: rest => renderIndented level v :: renderIndentedItems level rest

def renderIndentedFields (level : Nat) : List (String × Json) → List String
  | [] => []
  | (k, v) :: rest => (quote k ++ ": " ++ renderIndented level v) :: renderIndentedFields level rest

end

/-- A value over several lines. -/
def pretty (j : Json) : String := renderIndented 0 j

end ClassForge.Json
