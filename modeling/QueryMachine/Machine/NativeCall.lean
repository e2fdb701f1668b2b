import QueryMachine.Machine.Paths

/-!
# Native calls

A native call pops its input and then its arguments, and pushes what the function answers.
-/

namespace QueryMachine

namespace Machine

/-- The input and the arguments of a native call, taken from the stack. -/
def popCall (m : Machine) (argc : Nat) : Except Fault (Value × List Value × Machine) :=
  match m.popValue with
  | .error fault => .error fault
  | .ok (input, m) =>
    match m.popValues argc with
    | .error fault => .error fault
    | .ok (args, m) => .ok (input, args, m)

/-- Raise the flag of a function that cancels runs, if a call reaches it. -/
def tripFlag (m : Machine) (table : NativeTable) (id : NativeId) (argc : Nat) : Machine :=
  match table.resolve id argc with
  | .ok native => { m with signals := m.signals.raise? native.trips }
  | .error _ => m

/-- `callnative` -/
def callNative (m : Machine) (table : NativeTable) (id : NativeId) (argc : Nat) : Effect :=
  match m.popCall argc with
  | .error fault => .fail m fault
  | .ok (input, args, popped) =>
    let called := popped.tripFlag table id argc
    match table.call id input args with
    | .error failure => .fail called (.ofFailure failure)
    | .ok output =>
      match called.recordStep (table.roleOf id) args output with
      | .error fault => .fail called fault
      | .ok recorded => .next (recorded.pushValue output)

end Machine

end QueryMachine
