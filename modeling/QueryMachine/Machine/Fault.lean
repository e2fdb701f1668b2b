import QueryMachine.Program.Instruction

/-!
# Faults

The errors of a run. A fault's `Kind` says how it travels through the pending branches: who
may catch it, or whether it discards them at once.
-/

namespace QueryMachine

/-- Why a run was canceled. -/
inductive CancelReason where
  | requested
  | deadlineExceeded
  deriving DecidableEq, Repr, Inhabited

/-- An error of a run. -/
inductive Fault where
  /-- An object's key is not a string. -/
  | keyNotString (key : Value)
  /-- Only arrays and objects have entries. -/
  | notIterable (value : Value)
  /-- A path expression computed a value instead of navigating to it. -/
  | invalidPath (value : Value)
  /-- A jump out of the label of this name. -/
  | exit (label : String)
  /-- A native function failed. -/
  | native (failure : NativeFailure)
  /-- Canceled from outside. -/
  | canceled (reason : CancelReason)
  /-- An operand is missing. -/
  | stackUnderflow
  /-- A variable of a scope that has no live activation. -/
  | unknownScope (id : ScopeId)
  /-- A call of a native number that is not taken. -/
  | unknownNative (id : NativeId)
  /-- An operand of the wrong kind. -/
  | invalidOperand (expected got : String)
  /-- A variable beyond the register file. -/
  | registerOutOfBounds (index : Nat)
  deriving Repr, Inhabited

namespace Fault

/-- How a fault travels. -/
inductive Kind where
  /-- Caught by the nearest recovering branch. -/
  | ordinary
  /-- Absorbed only by a labeled branch of its name. -/
  | exit
  /-- Passes every branch. -/
  | cancellation
  /-- The program itself is broken: pending branches are discarded. -/
  | fatal
  deriving DecidableEq, Repr, Inhabited

/-- The kind of a fault. -/
def kind : Fault → Kind
  | .keyNotString _ | .notIterable _ | .invalidPath _ | .native _ => .ordinary
  | .exit _ => .exit
  | .canceled _ => .cancellation
  | .stackUnderflow | .unknownScope _ | .unknownNative _ | .invalidOperand ..
  | .registerOutOfBounds _ => .fatal

/-- Whether a recovering branch may catch the fault. -/
def isCatchable (f : Fault) : Bool :=
  f.kind == .ordinary

/-- Whether the fault discards all pending branches. -/
def isFatal (f : Fault) : Bool :=
  f.kind == .fatal

/-- The wording of a fault. -/
def message : Fault → String
  | .keyNotString key =>
    s!"expected a string for object key but got: {key.typeName} ({key.preview})"
  | .notIterable value => s!"cannot iterate over: {value.typeName} ({value.preview})"
  | .invalidPath value => s!"invalid path against: {value.typeName} ({value.preview})"
  | .exit label => s!"break {label}"
  | .native failure => failure.message
  | .canceled .requested => "execution canceled"
  | .canceled .deadlineExceeded => "execution deadline exceeded"
  | .stackUnderflow => "Stack underflow"
  | .unknownScope id => s!"No live activation of scope {id.toNat}"
  | .unknownNative id => s!"Native function #{id.toNat} not registered"
  | .invalidOperand expected got => s!"Invalid operand: expected {expected}, got {got}"
  | .registerOutOfBounds index => s!"Register {index} out of bounds"

/-- What a recovering branch receives: the value a native function raised, or else the
wording. -/
def caught : Fault → Value
  | .native failure => failure.caught
  | fault => .string fault.message

/-- The wording of the native failure behind a fault. -/
def source? : Fault → Option String
  | .native failure => some failure.message
  | _ => none

/-- A native failure as a fault of the run: a jump out of a label travels as such, and a
missing function is a fault of the program. -/
def ofFailure : NativeFailure → Fault
  | .exit label => .exit label
  | .missing id => .unknownNative id
  | failure => .native failure

end Fault

end QueryMachine
