import QueryMachine.Number.Binary64

/-!
# Values

The tree-shaped data that programs compute on: the scalars, arrays and objects of a data
format, and `foreign` handles that programs carry about without looking inside.

* An object's entries are listed by ascending key, each key once; `Value.ofEntries` builds
  one from any list of pairs, and a later pair replaces an earlier one with its key.
* `Value.equal` is structural. It is not reflexive, because a NaN differs from itself; an
  integer never equals a floating-point number.
-/

namespace QueryMachine

/-- A host's own value. Two handles are the same value exactly when both parts agree. -/
structure Foreign where
  typeName : String
  identity : Int
  deriving DecidableEq, Repr, Inhabited

/-- A value as programs see it. -/
inductive Value where
  | null
  | bool (b : Bool)
  | int (n : Int64)
  | float (x : Binary64)
  | string (s : String)
  | array (items : Array Value)
  | object (entries : List (String × Value))
  | foreign (handle : Foreign)
  deriving Repr, Inhabited

namespace Value

/-! ## Objects -/

/-- Put a pair into entries that ascend by key, in the place of the pair with that key if
there is one. -/
def insertEntry (key : String) (value : Value) : List (String × Value) → List (String × Value)
  | [] => [(key, value)]
  | (k, v) :: rest =>
    if key < k then (key, value) :: (k, v) :: rest
    else if key = k then (key, value) :: rest
    else (k, v) :: insertEntry key value rest

/-- An object of the given pairs; the last pair of each key counts. -/
def ofEntries (pairs : List (String × Value)) : Value :=
  .object (pairs.foldl (fun entries pair => insertEntry pair.1 pair.2 entries) [])

/-- The value an object's entries hold under a key. -/
def lookup (key : String) : List (String × Value) → Option Value
  | [] => none
  | (k, v) :: rest => if k = key then some v else lookup key rest

/-! ## Equality -/

mutual

/-- Deep structural equality, with IEEE equality on floating-point numbers. Containers of
different sizes differ without a look at what they hold. -/
def equal : Value → Value → Bool
  | .null, .null => true
  | .bool a, .bool b => a == b
  | .int a, .int b => a == b
  | .float a, .float b => a.equal b
  | .string a, .string b => a == b
  | .array ⟨a⟩, .array ⟨b⟩ => a.length == b.length && equalItems a b
  | .object a, .object b => a.length == b.length && equalEntries a b
  | .foreign a, .foreign b => a == b
  | _, _ => false

/-- Equality of arrays: the same length, and equal items in each place. -/
def equalItems : List Value → List Value → Bool
  | [], [] => true
  | a :: as, b :: bs => equal a b && equalItems as bs
  | _, _ => false

/-- Equality of objects: the same keys, and equal values under each. -/
def equalEntries : List (String × Value) → List (String × Value) → Bool
  | [], [] => true
  | (k, a) :: as, (l, b) :: bs => k == l && equal a b && equalEntries as bs
  | _, _ => false

end

/-! ## Views -/

/-- Null and false are false; everything else is true, zero and the empty string included. -/
def isTruthy : Value → Bool
  | .null | .bool false => false
  | _ => true

/-- The name that error messages and programs use for a value's type. Both kinds of number
share one; a foreign handle brings its own. -/
def typeName : Value → String
  | .null => "null"
  | .bool _ => "boolean"
  | .int _ | .float _ => "number"
  | .string _ => "string"
  | .array _ => "array"
  | .object _ => "object"
  | .foreign handle => handle.typeName

/-- The characters of a string. -/
def string? : Value → Option String
  | .string s => some s
  | _ => none

/-- The items of an array. -/
def items? : Value → Option (Array Value)
  | .array items => some items
  | _ => none

/-- The pairs of an object. -/
def entries? : Value → Option (List (String × Value))
  | .object entries => some entries
  | _ => none

/-! ## Numbers -/

/-- The 64-bit integer nearest to an integer. -/
def saturate (n : Int) : Int64 :=
  if n < Int64.minValue.toInt then Int64.minValue
  else if Int64.maxValue.toInt < n then Int64.maxValue
  else Int64.ofInt n

/-- The integral view of a number: a finite floating-point number is rounded down, and cut
off at the ends of the integer range. -/
def index? : Value → Option Int64
  | .int n => some n
  | .float x => x.floor?.map saturate
  | _ => none

/-- A count as a value: an integer if it fits, else the nearest floating-point number. -/
def ofNat (n : Nat) : Value :=
  if n < Nat.pow 2 63 then .int (Int64.ofNat n) else .float (Binary64.ofNat n)

end Value

end QueryMachine
