import ClassForge.Catalog.Basic
import ClassForge.Project.Library

/-!
# The catalogs of libraries

Each library may have a catalog for a locale. Their entries are put together, those of an earlier
library first.
-/

namespace ClassForge.Catalog

def ofLibrary? (t : FileTree) (locale : String) (l : Library) :
    Except CatalogError (Option Catalog) :=
  let file := l.translationPath.child (locale ++ ".po")
  match if t.isFile file then (t.read file).toOption else none with
  | some text => some <$> parse locale text
  | none => .ok none

def load (t : FileTree) (libraries : List Library) (locale : String) :
    Except CatalogError Catalog := do
  let found ← libraries.mapM (ofLibrary? t locale)
  return found.foldl (fun c other => other.elim c c.merge) { locale }

def loadAll (t : FileTree) (libraries : List Library) (locales : List String) :
    Except CatalogError (Table Catalog) := do
  let catalogs ← locales.mapM fun locale => do
    let c ← load t libraries locale
    return (locale, c)
  return Table.ofList catalogs

end ClassForge.Catalog
