import ClassForge.Json.Codec

/-!
# Dependencies

When one class needs another: while its file loads, when an object is constructed, or later.
-/

namespace ClassForge

open Json (Encode Decode encode)

/-- When code runs. -/
inductive Phase where
  | load
  | construct
  | runtime
deriving DecidableEq, Inhabited

structure Needs where
  load : Bool := false
  construct : Bool := false
  runtime : Bool := false
deriving DecidableEq, Inhabited

def Needs.add (n : Needs) : Phase → Needs
  | .load => { n with load := true }
  | .construct => { n with construct := true }
  | .runtime => { n with runtime := true }

instance : Encode Needs := ⟨fun n => .object (
  Json.fieldIf "load" n.load ++ Json.fieldIf "construct" n.construct ++
    Json.fieldIf "runtime" n.runtime)⟩

instance : Decode Needs := ⟨Json.readFields do
  let load ← Json.defaulted "load" false
  let construct ← Json.defaulted "construct" false
  let runtime ← Json.defaulted "runtime" false
  return { load, construct, runtime }⟩

end ClassForge
