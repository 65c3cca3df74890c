import ClassForge.Text.Identifier

/-!
# Cased characters

The characters with the Unicode property Cased, and those with the property Case_Ignorable.
-/

namespace ClassForge.Text

/-- Characters with an upper, lower or title case form. -/
def casedRuns : List Nat := [
  65, 26, 6, 26, 47, 1, 10, 1, 4, 1, 5, 23, 1, 31, 1, 195, 1, 4, 4, 208, 2, 35, 7, 2, 30, 5, 96, 1,
  42, 4, 2, 2, 2, 4, 1, 1, 6, 1, 1, 3, 1, 1, 1, 20, 1, 83, 1, 139, 8, 166, 1, 38, 9, 41, 2839, 38,
  1, 1, 5, 1, 2, 43, 1, 4, 672, 86, 2, 6, 2178, 11, 5, 43, 2, 3, 64, 192, 64, 278, 2, 6, 2, 38, 2,
  6, 2, 8, 1, 1, 1, 1, 1, 1, 1, 31, 2, 53, 1, 7, 1, 1, 3, 3, 1, 7, 3, 4, 2, 6, 4, 13, 5, 3, 1, 7,
  116, 1, 13, 1, 16, 13, 101, 1, 4, 1, 2, 10, 1, 1, 3, 5, 6, 1, 1, 1, 1, 1, 1, 4, 1, 6, 4, 1, 2, 4,
  5, 5, 4, 1, 17, 32, 3, 2, 817, 52, 1814, 229, 6, 4, 3, 2, 12, 38, 1, 1, 5, 1, 30994, 46, 18, 30,
  132, 102, 3, 4, 1, 77, 20, 6, 1, 3, 821, 43, 1, 14, 6, 80, 20288, 7, 12, 5, 1033, 26, 6, 26, 1189,
  80, 96, 36, 4, 36, 116, 11, 1, 15, 1, 7, 1, 2, 1, 11, 1, 15, 1, 7, 1, 2, 451, 1, 2, 3, 1, 42, 1,
  9, 1221, 51, 13, 51, 93, 22, 10, 22, 2842, 64, 21856, 64, 32, 25, 2, 25, 25900, 85, 1, 71, 1, 2,
  2, 1, 2, 2, 2, 4, 1, 12, 1, 1, 1, 7, 1, 65, 1, 4, 2, 8, 1, 7, 1, 28, 1, 4, 1, 5, 1, 1, 3, 7, 1,
  340, 2, 25, 1, 25, 1, 31, 1, 25, 1, 31, 1, 25, 1, 31, 1, 25, 1, 31, 1, 25, 1, 8, 1844, 10, 1, 20,
  6, 6, 261, 62, 2194, 68, 2028, 26, 6, 26, 6, 26]

/-- Characters besides marks that do not count for the case of the letters around them. -/
def caseIgnorableRuns : List Nat := [
  39, 1, 6, 1, 11, 1, 35, 1, 1, 1, 71, 1, 4, 1, 1, 1, 4, 1, 2, 2, 503, 192, 4, 2, 4, 1, 9, 2, 1, 1,
  251, 7, 207, 1, 5, 1, 148, 1, 11, 6, 22, 1, 35, 1, 149, 8, 1, 10, 38, 1, 219, 11, 4, 1, 27, 24,
  90, 1, 7, 2, 55, 58, 110, 1, 1236, 9, 119, 1, 565, 1, 1754, 1, 51, 5, 51, 1, 65, 2, 544, 1, 8, 46,
  410, 6, 174, 63, 13, 1, 34, 101, 445, 1, 1, 3, 11, 3, 13, 3, 13, 3, 13, 2, 12, 5, 8, 2, 10, 1, 2,
  1, 2, 5, 49, 5, 1, 10, 1, 1, 13, 1, 16, 13, 51, 33, 2955, 2, 241, 1, 191, 1, 469, 1, 43, 5, 5, 1,
  93, 6, 93, 3, 28438, 1, 1250, 6, 270, 1, 98, 4, 12, 1, 28, 4, 96, 34, 78, 1, 23, 3, 102, 4, 3, 2,
  469, 1, 21, 2, 137, 1, 108, 1, 21, 2, 102, 5, 9, 3, 20550, 17, 592, 1, 62, 1, 2, 1, 169, 1, 7, 1,
  6, 1, 11, 1, 35, 1, 1, 1, 47, 1, 45, 2, 67, 1, 21, 3, 1924, 6, 1, 42, 1, 9, 1427, 1, 32, 1, 341,
  1, 503, 1, 15, 1, 3339, 1, 5718, 17, 14079, 4, 508, 3, 40, 2, 546, 17, 64, 2, 1, 2, 13, 2, 16380,
  4, 1, 7, 1, 2, 3233, 4, 5327, 16, 3757, 62, 194, 14, 941, 5, 527, 1, 580, 8, 2735, 5, 789505, 1,
  30, 96]

def isCased (c : Char) : Bool := inRuns casedRuns c.toNat

def isCaseIgnorable (c : Char) : Bool :=
  inRuns markRuns c.toNat || inRuns caseIgnorableRuns c.toNat

end ClassForge.Text
