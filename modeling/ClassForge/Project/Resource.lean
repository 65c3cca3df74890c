import ClassForge.Project.Library
import ClassForge.Text.Regex

/-!
# Resources

The files below the resource directories of all libraries, by their paths in these directories. Of
two libraries with the same resource the one with the lesser namespace counts.
-/

namespace ClassForge

structure ResourceIndex where
  files : Table Path := .empty

namespace ResourceIndex

def ofLibrary (t : FileTree) (l : Library) : List (String × Path) :=
  (t.visibleBelow l.resourcePath).map fun names =>
    ("/".intercalate names, names.foldl Path.child l.resourcePath)

def scan (t : FileTree) (libraries : List Library) : ResourceIndex :=
  { files := Table.ofList (libraries.flatMap (ofLibrary t)).reverse }

def size (r : ResourceIndex) : Nat := r.files.size

def get? (r : ResourceIndex) (id : String) : Option Path := r.files.get? id

/-- The expression for a pattern in which a star stands for any text on one line. A pattern without a
star has none. -/
def assetPattern? (pattern : List Char) : Option Text.Regex :=
  if '*' ∈ pattern then
    Text.Regex.compile? []
      ('^' :: ".*".toList.intercalate ((Text.splitOn '*' pattern).map Text.Regex.escape) ++ ['$'])
  else none

def addMatches (r : ResourceIndex) (selected : NameSet) (pattern : String) : NameSet :=
  match assetPattern? pattern.toList with
  | some expression =>
    (r.files.keys.filter fun id => expression.isMatch id.toList).foldl NameSet.add selected
  | none => if r.files.contains pattern then NameSet.add selected pattern else selected

def select (r : ResourceIndex) (patterns : List String) : NameSet := patterns.foldl r.addMatches .empty

end ResourceIndex

end ClassForge
