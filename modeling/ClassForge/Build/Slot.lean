/-!
# Slots of makers

A maker never runs twice at once. A request that comes while it runs joins that run; if the request
says that something has changed, the one who started the run starts another one after it.
-/

namespace ClassForge

structure MakeSlot where
  running : Option Nat := none
  dirty : Bool := false
deriving DecidableEq, Inhabited

namespace MakeSlot

def request (s : MakeSlot) (dirty : Bool) (run : Nat) : (Nat × Bool) × MakeSlot :=
  match s.running with
  | some r => ((r, false), { s with dirty := s.dirty || dirty })
  | none => ((run, true), { running := some run, dirty := false })

def release (s : MakeSlot) : Bool × MakeSlot := (s.dirty, {})

end MakeSlot

end ClassForge
