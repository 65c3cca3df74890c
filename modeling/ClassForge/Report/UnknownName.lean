/-!
# Lookups by name

Targets, transformers and libraries are found by their names.
-/

namespace ClassForge

structure UnknownName where
  kind : String
  name : String
deriving DecidableEq

def UnknownName.message (e : UnknownName) : String := "Unknown " ++ e.kind ++ " \"" ++ e.name ++ "\""

end ClassForge
