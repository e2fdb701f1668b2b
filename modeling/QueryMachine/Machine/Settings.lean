/-!
# Settings

What a host can choose about how runs are carried out. None of it changes what a program
computes.
-/

namespace QueryMachine

/-- How runs are carried out. -/
structure Settings where
  /-- Report an event for every instruction. -/
  trace : Bool := false
  /-- How many instructions pass between two looks at the interrupt; native calls always
  look. -/
  pollInterval : UInt32 := 256
  /-- How many idle machines are kept for later runs. -/
  poolCapacity : Nat := 32
  /-- How many registers a fresh machine has. -/
  initialRegisters : Nat := 16
  deriving DecidableEq, Repr, Inhabited

end QueryMachine
