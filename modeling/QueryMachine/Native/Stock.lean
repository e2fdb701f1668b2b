import QueryMachine.Native.Table

/-!
# Stock natives

Small functions that a host can register under names of its own: constants, projections,
failures, integer addition, array length, and a call that cancels a run.
-/

namespace QueryMachine

/-- The behaviour of a stock native. -/
inductive Behaviour where
  /-- Always the same value. -/
  | const (v : Value)
  /-- The input. -/
  | input
  /-- The argument at a position. -/
  | arg (position : Nat)
  /-- An array of the input and all arguments. -/
  | args
  /-- Always the same failure. -/
  | fail (failure : NativeFailure)
  /-- The sum of the input and the first argument, both integers. -/
  | add
  /-- The number of items of the input array. -/
  | length
  deriving Repr, Inhabited

namespace Behaviour

/-- The sum of two integers, if it is in range. -/
def sum (a b : Int64) : Except NativeFailure Value :=
  let exact := a.toInt + b.toInt
  if Int64.minValue.toInt ≤ exact ∧ exact ≤ Int64.maxValue.toInt then
    .ok (.int (Int64.ofInt exact))
  else .error (.runtime "overflow")

/-- What a behaviour answers. -/
def run (behaviour : Behaviour) (input : Value) (args : List Value) :
    Except NativeFailure Value :=
  match behaviour with
  | .const v => .ok v
  | .input => .ok input
  | .arg position => .ok (args.getD position .null)
  | .args => .ok (.array (input :: args).toArray)
  | .fail failure => .error failure
  | .add =>
    match input, args.getD 0 .null with
    | .int a, .int b => sum a b
    | a, b => .error (.mismatch "number" s!"{a.typeName} and {b.typeName}")
  | .length =>
    match input with
    | .array items => .ok (Value.ofNat items.size)
    | other => .error (.mismatch "array" other.typeName)

end Behaviour

namespace Native

/-- A stock native. -/
def stock (name : String) (arity : Nat) (role : Role) (behaviour : Behaviour) : Native where
  name
  arity
  role
  run := behaviour.run

/-- A stock native that raises a cancellation flag and answers its input. -/
def canceling (name : String) (arity : Nat) (role : Role) (flag : Option Nat) : Native where
  name
  arity
  role
  trips := flag
  run := Behaviour.input.run

end Native

end QueryMachine
