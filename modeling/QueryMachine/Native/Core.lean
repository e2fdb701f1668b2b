import QueryMachine.Native.Table
import QueryMachine.Value.Navigation

/-!
# The core natives

The functions that every program may count on, under the numbers 0 to 4: indexing, slicing,
raising a value, leaving a label, and naming the input's type.
-/

namespace QueryMachine

namespace Native

/-- `_index`: arguments `subject, key`. -/
def index : Native where
  name := "_index"
  arity := 2
  role := .index
  run := fun _ args => Value.index (args.getD 0 .null) (args.getD 1 .null)

/-- `_slice`: arguments `subject, end, start`. -/
def slice : Native where
  name := "_slice"
  arity := 3
  role := .slice
  run := fun _ args => Value.slice (args.getD 0 .null) (args.getD 2 .null) (args.getD 1 .null)

/-- `error`: raises its argument. -/
def error : Native where
  name := "error"
  arity := 1
  run := fun _ args => .error (.thrown (args.getD 0 .null))

/-- `_break`: leaves the label that its argument names. -/
def leave : Native where
  name := "_break"
  arity := 1
  run := fun _ args =>
    match args.getD 0 .null with
    | .string label => .error (.exit label)
    | other => .error (.mismatch "string" other.typeName)

/-- `type`: the name of the input's type. -/
def type : Native where
  name := "type"
  arity := 0
  run := fun input _ => .ok (.string input.typeName)

/-- The core natives in the order of their numbers. -/
def core : List Native :=
  [index, slice, error, leave, type]

end Native

/-- A table that holds the core natives. -/
def NativeTable.core : NativeTable :=
  NativeTable.registerAll {} Native.core

end QueryMachine
