import QueryMachine.Program.Basic

/-!
# Listings

The readable form of a program: a heading, then one row for each instruction with its
position, its source line if one is known, and its text. A function's name stands on a row of
its own above its first instruction, and a native call shows the function's name.
-/

namespace QueryMachine

namespace Program

/-- The text of the instruction at a position; a native call names its function if the number
is taken. -/
def instructionText (p : Program) (pc : Nat) : String :=
  match p.at? pc with
  | none => "???"
  | some (.callNative id argc) =>
    match p.natives.nameOf? id with
    | some name => s!"callnative {name} argc={argc}"
    | none => Instruction.text (.callNative id argc)
  | some i => i.text

/-- The row of a position, under the names of the functions that start there. -/
def row (p : Program) (pc : Nat) : String :=
  let names := p.functions.toList.filter (·.pc = pc)
  let heading := String.join (names.map fun mark => s!"{mark.name}:\n")
  let line := (p.lineAt? pc).elim "" fun n => padLeft ' ' 4 (toString n.toNat) ++ " "
  s!"{heading}{Instruction.positionText pc} {line}{p.instructionText pc}\n"

/-- The whole listing. -/
def listing (p : Program) : String :=
  let rows := String.join ((List.range p.length).map p.row)
  s!"=== {p.name} ===\ninstructions: {p.length}, natives: {p.natives.size}\n{rows}"

end Program

end QueryMachine
