import QueryMachine.Native.Failure

/-!
# Native functions and their table

A program calls host functions by number. A `NativeTable` hands out the numbers: densely, in
the order of registration, and for good. Registering a name again answers the number it
already has and changes nothing.

The table has two parts, the functions by number and the numbers by name. A registration adds
to both, and a lookup reads the one that it needs.

A function with a navigation `Role` tells which of its arguments it navigates from, and which
path component the step contributes.
-/

namespace QueryMachine

/-- The number of a native function in its table. -/
abbrev NativeId := UInt16

/-- How a native call takes part in a recorded path. -/
inductive Role where
  /-- No navigation; a recorded path ignores the call. -/
  | plain
  /-- Arguments `subject, key`: a step by `key`. -/
  | index
  /-- Arguments `subject, end, start`: a step by an object of the two bounds. -/
  | slice
  deriving DecidableEq, Repr, Inhabited

namespace Role

/-- Which argument is navigated from. -/
def subject? : Role → Option Nat
  | .plain => none
  | .index | .slice => some 0

/-- The path component of a call with these arguments. -/
def component? : Role → List Value → Option Value
  | .index, _ :: key :: _ => some key
  | .slice, _ :: stop :: start :: _ => some (.ofEntries [("start", start), ("end", stop)])
  | _, _ => none

end Role

/-- A host function: it maps the current input and its arguments to a value or a failure.
A function that also cancels runs names the flag that calling it raises. -/
structure Native where
  name : String
  arity : Nat
  role : Role := .plain
  trips : Option Nat := none
  run : Value → List Value → Except NativeFailure Value

/-- Native functions by number, and the numbers by name. Of several numbers under one name the
first in the list counts. -/
structure NativeTable where
  entries : Array Native := #[]
  ids : List (String × NativeId) := []

namespace NativeTable

/-! ## Lookup -/

/-- The number of functions. -/
def size (t : NativeTable) : Nat :=
  t.entries.size

/-- The function of a number. -/
def get? (t : NativeTable) (id : NativeId) : Option Native :=
  t.entries[id.toNat]?

/-- The number of a name. -/
def idOf? (t : NativeTable) (name : String) : Option NativeId :=
  t.ids.lookup name

/-- The name of a number. -/
def nameOf? (t : NativeTable) (id : NativeId) : Option String :=
  (t.get? id).map (·.name)

/-- The number of arguments that the function of a number takes. -/
def arityOf? (t : NativeTable) (id : NativeId) : Option Nat :=
  (t.get? id).map (·.arity)

/-- The role of a number; a number without a function navigates nowhere. -/
def roleOf (t : NativeTable) (id : NativeId) : Role :=
  (t.get? id).elim .plain (·.role)

/-! ## Registration and calls -/

/-- Add a function under the next free number, unless its name has one already. -/
def register (t : NativeTable) (native : Native) : NativeTable × NativeId :=
  match t.idOf? native.name with
  | some id => (t, id)
  | none =>
    let id := UInt16.ofNat t.entries.size
    ({ entries := t.entries.push native, ids := (native.name, id) :: t.ids }, id)

/-- Add several functions in order. -/
def registerAll (t : NativeTable) (natives : List Native) : NativeTable :=
  natives.foldl (fun table native => (table.register native).1) t

/-- The function that a call reaches: the number must be taken and the number of arguments
right, in this order. -/
def resolve (t : NativeTable) (id : NativeId) (argc : Nat) : Except NativeFailure Native :=
  match t.get? id with
  | none => .error (.missing id)
  | some native =>
    if argc = native.arity then .ok native else .error (.arity native.arity argc)

/-- Call a function by number. -/
def call (t : NativeTable) (id : NativeId) (input : Value) (args : List Value) :
    Except NativeFailure Value :=
  match t.resolve id args.length with
  | .error failure => .error failure
  | .ok native => native.run input args

end NativeTable

end QueryMachine
