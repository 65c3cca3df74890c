import ClassForge.Files.Tree

/-!
# Writing output

Files of the output are written together with the directories they lie in.
-/

namespace ClassForge

structure OutputError where
  path : Path
  cause : FileError
deriving DecidableEq

def OutputError.message (e : OutputError) : String :=
  "Output error on " ++ e.path.quoted ++ ": " ++ e.cause.message

namespace Output

def makeRoomFor (file : Path) : FileM OutputError Unit :=
  match file.parent? with
  | some d => FileM.changing (·.createDirectories d) (OutputError.mk d)
  | none => pure ()

def write (file : Path) (text : String) : FileM OutputError Unit := do
  makeRoomFor file
  FileM.changing (·.write file text) (OutputError.mk file)

def copy (source file : Path) : FileM OutputError Unit := do
  makeRoomFor file
  FileM.changing (·.copy source file) (OutputError.mk source)

end Output

end ClassForge
