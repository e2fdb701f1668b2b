/-!
# A stack that rewinds in constant time

A `RewindStack` can save its state and go back to it later without copying. Values lie in an
array of cells, each linked to the cell below it, so that several stacks share their common
part.

* `top` is the cell that holds the topmost value of the current stack;
* `frozen` is the highest cell that a savepoint may lead back to.

A push takes the cell above both, so no cell below a savepoint is ever overwritten while that
savepoint can still be restored; cells above it are used again afterwards.
-/

namespace QueryMachine

/-- A value and the cell below it. -/
structure Cell (α : Type) where
  value : α
  below : Option Nat
  deriving DecidableEq, Repr

/-- What it takes to go back to an earlier state. -/
structure Savepoint where
  top : Option Nat := none
  frozen : Option Nat := none
  deriving DecidableEq, Repr, Inhabited

/-- A stack over an array of linked cells. -/
structure RewindStack (α : Type) where
  cells : Array (Cell α) := #[]
  top : Option Nat := none
  frozen : Option Nat := none
  deriving Repr

namespace RewindStack

variable {α : Type}

/-- The stack without values. -/
def empty : RewindStack α := {}

instance : Inhabited (RewindStack α) := ⟨empty⟩

/-- The higher of two cells; no cell is below every cell. -/
def higher : Option Nat → Option Nat → Option Nat
  | none, b => b
  | a, none => a
  | some a, some b => some (max a b)

/-! ## Push and pop -/

/-- The cell that the next push takes. -/
def nextCell (s : RewindStack α) : Nat :=
  (higher s.top s.frozen).elim 0 (· + 1)

/-- Put a value on top. -/
def push (s : RewindStack α) (value : α) : RewindStack α :=
  let place := s.nextCell
  let cell := ⟨value, s.top⟩
  if place < s.cells.size then
    { s with cells := s.cells.setIfInBounds place cell, top := some place }
  else
    { s with cells := s.cells.push cell, top := some place }

/-- The value in a cell and the cell below it. -/
def cell? (s : RewindStack α) (place : Option Nat) : Option (Cell α) :=
  match place with
  | none => none
  | some i => s.cells[i]?

/-- The value on top. -/
def top? (s : RewindStack α) : Option α :=
  (s.cell? s.top).map (·.value)

/-- Take the value from the top. Its cell stays as it is, because a savepoint may lead back
to it. -/
def pop? (s : RewindStack α) : Option (α × RewindStack α) :=
  (s.cell? s.top).map fun cell => (cell.value, { s with top := cell.below })

/-- The stack below the top. -/
def drop (s : RewindStack α) : RewindStack α :=
  s.pop?.elim s (·.2)

/-- Whether the stack holds no value. -/
def isEmpty (s : RewindStack α) : Bool :=
  s.top.isNone

/-! ## Going back -/

/-- Make another cell the top, and leave what is frozen as it is. -/
def setTop (s : RewindStack α) (top : Option Nat) : RewindStack α :=
  { s with top }

/-- What `restore` needs to come back to the present state. -/
def savepoint (s : RewindStack α) : Savepoint :=
  ⟨s.top, s.frozen⟩

/-- Freeze the present stack, so that its savepoint stays good. -/
def freeze (s : RewindStack α) : RewindStack α :=
  { s with frozen := higher s.top s.frozen }

/-- Go back to a savepoint. -/
def restore (s : RewindStack α) (saved : Savepoint) : RewindStack α :=
  { s with top := saved.top, frozen := saved.frozen }

/-! ## The stack as a list -/

/-- The values from a cell downwards, with their cells. A link always leads to a lower cell;
one that did not would end the walk. -/
def chainFrom (s : RewindStack α) (place : Nat) : List (Nat × α) :=
  match s.cells[place]? with
  | none => []
  | some cell =>
    match cell.below with
    | none => [(place, cell.value)]
    | some next =>
      if _ : next < place then (place, cell.value) :: s.chainFrom next
      else [(place, cell.value)]
termination_by place

/-- The current stack with its cells, from the top down. -/
def chain (s : RewindStack α) : List (Nat × α) :=
  s.top.elim [] s.chainFrom

/-- The current stack, from the top down. -/
def toList (s : RewindStack α) : List α :=
  s.chain.map (·.2)

/-- The topmost value from a cell downwards that is accepted. -/
def findFrom (s : RewindStack α) (accept : α → Bool) (place : Nat) : Option α :=
  match s.cells[place]? with
  | none => none
  | some cell =>
    if accept cell.value then some cell.value
    else
      match cell.below with
      | none => none
      | some next => if _ : next < place then s.findFrom accept next else none
termination_by place

/-- The topmost value of the current stack that is accepted. -/
def find? (s : RewindStack α) (accept : α → Bool) : Option α :=
  s.top.elim none (s.findFrom accept)

/-- How many values the stack holds. -/
def depth (s : RewindStack α) : Nat :=
  s.chain.length

/-- The values from a cell downwards that lie above a base, put before those above them. -/
def sinceFrom (s : RewindStack α) (base : Nat) (above : List α) (place : Nat) : List α :=
  if place = base then above
  else
    match s.cells[place]? with
    | none => above
    | some cell =>
      match cell.below with
      | none => cell.value :: above
      | some next =>
        if _ : next < place then s.sinceFrom base (cell.value :: above) next
        else cell.value :: above
termination_by place

/-- The values above a cell of the current stack, oldest first; all values if the cell is not
part of it. Only these values are looked at. -/
def since (s : RewindStack α) (base : Nat) : List α :=
  s.top.elim [] (s.sinceFrom base [])

end RewindStack

end QueryMachine
