/-!
# Waves of compiles

Compiles overlap. While some of them are under way, the makers that have to run again are only
noted; they run together when the last compile has ended.
-/

namespace ClassForge

structure Wave where
  /-- How many compiles are under way. -/
  inFlight : Nat := 0
  /-- The numbers of the makers, in ascending order. -/
  pending : List Nat := []
deriving DecidableEq

namespace Wave

def insertNumber (n : Nat) : List Nat → List Nat
  | [] => [n]
  | m :: rest => if n < m then n :: m :: rest else if n = m then m :: rest else m :: insertNumber n rest

def start (w : Wave) : Wave := { w with inFlight := w.inFlight + 1 }

/-- A compile ends, and some makers have to run again. Gives the makers that run now. -/
def finish (w : Wave) (makers : List Nat) : List Nat × Wave :=
  let inFlight := w.inFlight - 1
  let pending := makers.foldl (fun l n => insertNumber n l) w.pending
  if inFlight = 0 then (pending, { inFlight, pending := [] }) else ([], { inFlight, pending })

end Wave

end ClassForge
