import ClassForge.Text.Identifier

/-!
# Word characters

The characters of words: letters, marks, decimal digits, connectors and joiners. They differ from
the identifier characters in a few code points only.
-/

namespace ClassForge.Text

def wordOnlyRuns : List Nat := [
  1160, 2, 5684, 1, 1566, 4, 1, 3, 977, 52, 2373, 1, 30784, 3, 84669, 26, 6, 26, 6, 26]

def identifierOnlyRuns : List Nat := [
  183, 1, 719, 1, 4065, 9, 1640, 1, 1853, 1, 21, 1, 3948, 2, 94, 1, 52841, 1]

def isWordChar (c : Char) : Bool :=
  if c.toNat < 128 then c.isAlphanum || c == '_'
  else (isIdPart c || inRuns wordOnlyRuns c.toNat) && !inRuns identifierOnlyRuns c.toNat

end ClassForge.Text
