/-!
# Dotted names

A name such as `app.ui.Button` lies in the packages `app` and `app.ui`.
-/

namespace ClassForge.Text

def dotSplits : List Char → List (List Char × List Char)
  | [] => []
  | c :: rest =>
    let more := (dotSplits rest).map fun (a, b) => (c :: a, b)
    if c = '.' then ([], rest) :: more else more

/-- What stands before and after each dot of a name, the longest beginning first. -/
def splitsByLength (name : String) : List (String × String) :=
  ((dotSplits name.toList).map fun (a, b) => (String.ofList a, String.ofList b)).reverse

/-- The part of a name before its first dot. -/
def rootOf (name : String) : String := String.ofList (name.toList.takeWhile (· != '.'))

def lastOf (name : String) : String :=
  String.ofList ((name.toList.reverse.takeWhile (· != '.')).reverse)

def startsWith (start s : String) : Bool := start.toList.isPrefixOf s.toList

def endsWith (stop s : String) : Bool := stop.toList.isSuffixOf s.toList

end ClassForge.Text
