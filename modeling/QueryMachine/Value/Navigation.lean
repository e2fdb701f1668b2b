import QueryMachine.Native.Failure

/-!
# Navigation

The two ways to reach into a value, `subject[key]` and `subject[start:end]`, and the listing
of a container's entries.

* Positions count from the front when they are not negative, and from the back when they are.
* What is missing reads as null: an absent key, a position outside, anything inside null.
* A slice's bounds are cut off at the ends of the subject, so slicing an array or a string by
  numbers never fails; an end before the start gives the empty slice.
-/

namespace QueryMachine

namespace Value

/-! ## Positions -/

/-- Where an index points among `length` items, counted from the front. The sum is one of 64-bit
words. -/
def place (index : Int64) (length : Nat) : Int64 :=
  if index < 0 then index + Int64.ofNat length else index

/-- The position that an index names among `length` items; it may still lie past the end. -/
def position? (index : Int64) (length : Nat) : Option Nat :=
  if 0 ≤ place index length then some (place index length).toNatClampNeg else none

/-- The position that a slice bound names, cut off at the ends. -/
def cutoff (index : Int64) (length : Nat) : Nat :=
  min (place index length).toNatClampNeg length

/-- The position of a slice bound: null stands for the given default, a number for a
position; nothing else is a bound. -/
def bound (v : Value) (default length : Nat) : Except NativeFailure Nat :=
  match v with
  | .null => .ok default
  | v =>
    match v.index? with
    | some index => .ok (cutoff index length)
    | none => .error (.mismatch "number" v.typeName)

/-- Both bounds of a slice, the start's fault found first. -/
def bounds (start stop : Value) (length : Nat) : Except NativeFailure (Nat × Nat) :=
  match bound start 0 length with
  | .error failure => .error failure
  | .ok first =>
    match bound stop length length with
    | .error failure => .error failure
    | .ok last => .ok (first, last)

/-- The characters of a list from one position up to another. -/
def segment (chars : List Char) (first last : Nat) : List Char :=
  (chars.drop first).take (last - first)

/-! ## Slicing -/

/-- `subject[start:stop]`, over the items of an array or the characters of a string. -/
def slice (subject start stop : Value) : Except NativeFailure Value :=
  match subject with
  | .null => .ok .null
  | .array items =>
    match bounds start stop items.size with
    | .ok (first, last) => .ok (.array (items.extract first last))
    | .error failure => .error failure
  | .string s =>
    let chars := s.toList
    match bounds start stop chars.length with
    | .ok (first, last) => .ok (.string (String.ofList (segment chars first last)))
    | .error failure => .error failure
  | other => .error (.runtime s!"cannot slice {other.typeName} ({other.preview})")

/-! ## Indexing -/

/-- The item that an index names, null if there is none. -/
def itemAt (items : Array Value) (index : Int64) : Value :=
  match position? index items.size with
  | some place => items.getD place .null
  | none => .null

/-- Whether null can be indexed by a key. -/
def indexesNull : Value → Bool
  | .null | .int _ | .float _ | .string _ => true
  | _ => false

/-- The failure of indexing a subject by a key that does not fit it. -/
def notIndexable (subject : Value) : NativeFailure :=
  .runtime s!"expected an object but got: {subject.typeName} ({subject.preview})"

/-- `subject[key]`: a string selects in an object, a number in an array, and an object with
the entries `start` and `end` slices an array. -/
def index (subject key : Value) : Except NativeFailure Value :=
  match subject, key with
  | .null, key => if key.indexesNull then .ok .null else .error (notIndexable .null)
  | .object entries, .string name => .ok ((lookup name entries).getD .null)
  | .array items, .object range =>
    slice (.array items) ((lookup "start" range).getD .null) ((lookup "end" range).getD .null)
  | .array items, key =>
    match key.index? with
    | some place => .ok (itemAt items place)
    | none => .error (notIndexable (.array items))
  | subject, _ => .error (notIndexable subject)

/-! ## Entries -/

/-- The keys and values of a container in the order of iteration: an array by position, an
object by ascending key. Other values have none. -/
def keyed? : Value → Option (List (Value × Value))
  | .array items => some (items.mapIdx fun place item => (ofNat place, item)).toList
  | .object entries => some (entries.map fun entry => (.string entry.1, entry.2))
  | _ => none

end Value

end QueryMachine
