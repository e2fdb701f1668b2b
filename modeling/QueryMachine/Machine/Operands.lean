import QueryMachine.Machine.State

/-!
# Operands

How instructions move operands on and off the stack, and the instructions that do nothing
else. An instruction answers with an `Effect`: the machine after it, and where the run goes
from there. A failing instruction hands back the machine that looks for a handler.
-/

namespace QueryMachine

/-- What an instruction does to the run. -/
inductive Effect where
  /-- Go on with the next instruction. -/
  | next (m : Machine)
  /-- Go on at a position. -/
  | jump (m : Machine) (target : Nat)
  /-- This continuation ends here. -/
  | stop (m : Machine)
  /-- A result is complete. -/
  | yield (m : Machine) (v : Value)
  /-- The instruction failed. -/
  | fail (m : Machine) (fault : Fault)

namespace Effect

/-- The machine after the instruction. -/
def machine : Effect → Machine
  | .next m | .jump m _ | .stop m | .yield m _ | .fail m _ => m

end Effect

namespace Machine

/-! ## Pushing and popping -/

/-- Push an operand. -/
def pushOperand (m : Machine) (x : Operand) : Machine :=
  { m with stack := m.stack.push x }

/-- Push a value. -/
def pushValue (m : Machine) (v : Value) : Machine :=
  m.pushOperand (.value v)

/-- Pop an operand. -/
def popOperand (m : Machine) : Except Fault (Operand × Machine) :=
  match m.stack.pop? with
  | some (x, stack) => .ok (x, { m with stack })
  | none => .error .stackUnderflow

/-- Pop an operand that must be a value. -/
def popValue (m : Machine) : Except Fault (Value × Machine) :=
  match m.popOperand with
  | .error fault => .error fault
  | .ok (x, m) =>
    match x.toValue with
    | .error fault => .error fault
    | .ok v => .ok (v, m)

/-- Pop so many values, the topmost first. -/
def popValues (m : Machine) : Nat → Except Fault (List Value × Machine)
  | 0 => .ok ([], m)
  | count + 1 =>
    match m.popValue with
    | .error fault => .error fault
    | .ok (v, m) =>
      match m.popValues count with
      | .error fault => .error fault
      | .ok (rest, m) => .ok (v :: rest, m)

/-- Pop so many pairs of a string and, above it, a value; they are put before the pairs that
follow them in the order of pushing. -/
def popPairs (m : Machine) (following : List (String × Value)) :
    Nat → Except Fault (List (String × Value) × Machine)
  | 0 => .ok (following, m)
  | count + 1 =>
    match m.popValue with
    | .error fault => .error fault
    | .ok (v, m) =>
      match m.popValue with
      | .error fault => .error fault
      | .ok (.string key, m) => m.popPairs ((key, v) :: following) count
      | .ok (key, _) => .error (.keyNotString key)

/-! ## Instructions -/

/-- `pop` -/
def dropTop (m : Machine) : Effect :=
  match m.popOperand with
  | .error fault => .fail m fault
  | .ok (_, m) => .next m

/-- `dup` -/
def duplicate (m : Machine) : Effect :=
  match m.stack.top? with
  | none => .fail m .stackUnderflow
  | some x => .next (m.pushOperand x)

/-- `swap` -/
def exchange (m : Machine) : Effect :=
  match m.popOperand with
  | .error fault => .fail m fault
  | .ok (x, once) =>
    match once.popOperand with
    | .error fault => .fail m fault
    | .ok (y, twice) => .next ((twice.pushOperand x).pushOperand y)

/-- `const` -/
def replaceTop (m : Machine) (v : Value) : Effect :=
  match m.popOperand with
  | .error fault => .fail m fault
  | .ok (_, m) => .next (m.pushValue v)

/-- `object` -/
def buildObject (m : Machine) (pairs : Nat) : Effect :=
  match m.popPairs [] pairs with
  | .error fault => .fail m fault
  | .ok (entries, m) => .next (m.pushValue (.ofEntries entries))

/-- `jumpifnot` -/
def jumpUnless (m : Machine) (target : Nat) : Effect :=
  match m.popValue with
  | .error fault => .fail m fault
  | .ok (condition, m) => if condition.isTruthy then .next m else .jump m target

end Machine

end QueryMachine
