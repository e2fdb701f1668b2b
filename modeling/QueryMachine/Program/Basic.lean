import QueryMachine.Program.Instruction

/-!
# Programs

A program is an immutable sequence of instructions together with what its compiler knows
about them: where functions start, which source lines they come from, and the table of native
functions that its calls refer to by number.
-/

namespace QueryMachine

/-- A function's name at the position where its code starts. -/
structure FunctionMark where
  name : String
  pc : Nat
  deriving DecidableEq, Repr, Inhabited

/-- From this position on, instructions come from this source line. -/
structure LineMark where
  pc : Nat
  line : UInt32
  deriving DecidableEq, Repr, Inhabited

/-- A finished program. Both kinds of mark ascend by position. -/
structure Program where
  name : String
  code : Array Instruction
  functions : Array FunctionMark
  lines : Array LineMark
  natives : NativeTable

namespace Program

/-- The number of instructions. -/
def length (p : Program) : Nat :=
  p.code.size

/-- The instruction at a position. -/
def at? (p : Program) (pc : Nat) : Option Instruction :=
  p.code[pc]?

/-- The last of the marks that are not beyond a position. -/
def lastMark? {α : Type} (position : α → Nat) (marks : List α) (pc : Nat) : Option α :=
  (marks.filter fun mark => position mark ≤ pc).getLast?

/-- The name of the function that a position lies in. -/
def functionAt? (p : Program) (pc : Nat) : Option String :=
  (lastMark? FunctionMark.pc p.functions.toList pc).map (·.name)

/-- The source line of a position. -/
def lineAt? (p : Program) (pc : Nat) : Option UInt32 :=
  (lastMark? LineMark.pc p.lines.toList pc).map (·.line)

end Program

end QueryMachine
