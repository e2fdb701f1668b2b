import QueryMachine.Value.Preview

/-!
# Failures of native functions

What a native function can answer instead of a value, with the wording of each cause and the
value that a recovery handler receives for it.
-/

namespace QueryMachine

/-- Why a native call produced no value. -/
inductive NativeFailure where
  /-- Called with the wrong number of arguments. -/
  | arity (expected got : Nat)
  /-- An argument of the wrong type. -/
  | mismatch (expected got : String)
  /-- Any other failure of the function itself. -/
  | runtime (message : String)
  /-- A value raised by the program. -/
  | thrown (value : Value)
  /-- A jump out of the enclosing label of this name. -/
  | exit (label : String)
  /-- No function has this id. -/
  | missing (id : UInt16)
  deriving Repr, Inhabited

namespace NativeFailure

/-- The wording of a failure. A thrown string speaks for itself. -/
def message : NativeFailure → String
  | .arity expected got => s!"arity mismatch: expected {expected}, got {got}"
  | .mismatch expected got => s!"type error: expected {expected}, got {got}"
  | .runtime message => s!"runtime error: {message}"
  | .thrown (.string s) => s
  | .thrown v => s!"{v.preview} (not a string)"
  | .exit label => s!"break {label}"
  | .missing id => s!"native function {id.toNat} not found"

/-- What a handler receives: the thrown value itself, or else the wording. -/
def caught : NativeFailure → Value
  | .thrown v => v
  | failure => .string failure.message

end NativeFailure

end QueryMachine
