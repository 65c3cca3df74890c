import ClassForge.Text.Identifier

/-!
# Quoted texts

A text in double quotes as messages show it: quotes, backslashes, and characters that cannot be seen
or that join the one before are escaped.
-/

namespace ClassForge.Text

/-- Characters besides marks that join the one before. -/
def extenderRuns : List Nat := [
  1155, 7, 1332, 1, 24, 1, 358, 2, 21, 3, 102, 1, 24, 1, 231, 2, 1, 1, 3, 3, 1, 4, 7, 2, 103, 1, 24,
  1, 119, 1, 15, 1, 2354, 4, 28, 3, 336, 2, 553, 46, 86, 10, 4, 3, 99, 6, 65, 5, 1244, 33, 3897, 6,
  30271, 4, 736, 1, 108, 1, 21981, 2, 4640, 1, 115, 4, 262, 1, 14, 1, 9, 1, 96, 1, 9, 1, 2, 1, 1, 3,
  4, 3, 223, 1, 12, 1, 241, 1, 256, 8, 632, 1, 10, 4, 1537, 3, 20653, 2, 24947, 5, 3, 6, 798381, 96]

/-- Control, format and private characters, and separators other than the space. -/
def unseenRuns : List Nat := [
  0, 32, 95, 34, 12, 1, 1362, 6, 22, 1, 192, 1, 49, 1, 384, 2, 80, 1, 3485, 1, 397, 1, 2033, 16, 24,
  8, 47, 6, 1, 10, 3984, 1, 45055, 6400, 1535, 1, 249, 3, 4289, 1, 15, 1, 9058, 16, 34912, 4, 5327,
  8, 798342, 1, 30, 96, 65408, 65534, 2, 65534]

/-- The lower-case hexadecimal digits of a number. -/
def hexText (n : Nat) : List Char := Nat.toDigits 16 n

def quotedChar (c : Char) : List Char :=
  if c = '"' then ['\\', '"']
  else if c = '\\' then ['\\', '\\']
  else if c = '\n' then ['\\', 'n']
  else if c = '\r' then ['\\', 'r']
  else if c = '\t' then ['\\', 't']
  else if c.toNat = 0 then ['\\', '0']
  else if inRuns unseenRuns c.toNat || (128 ≤ c.toNat &&
      (inRuns markRuns c.toNat || inRuns extenderRuns c.toNat)) then
    "\\u\x7b".toList ++ hexText c.toNat ++ ['\x7d']
  else [c]

def quoted (s : String) : String :=
  String.ofList ('"' :: (s.toList.flatMap quotedChar ++ ['"']))

end ClassForge.Text
