import QueryMachine.Program.Basic
import QueryMachine.Native.Core

/-!
# Building programs

A `Builder` collects instructions in order. A jump whose target is not known yet is emitted
for its `Label`, and the label's instruction gets its target later. The line table holds an
entry only where the source line changes.
-/

namespace QueryMachine

/-- The position of an instruction whose target is still to be set. -/
structure Label where
  pc : Nat
  deriving DecidableEq, Repr, Inhabited

/-- A program under construction. -/
structure Builder where
  name : String
  code : Array Instruction := #[]
  functions : Array FunctionMark := #[]
  lines : Array LineMark := #[]
  natives : NativeTable := .core
  line : Option UInt32 := none

namespace Builder

/-- A builder whose table holds the core natives. -/
def new (name : String) : Builder :=
  { name }

/-- A builder over a given table. -/
def withNatives (name : String) (natives : NativeTable) : Builder :=
  { name, natives }

/-- The position of the next instruction. -/
def pc (b : Builder) : Nat :=
  b.code.size

/-! ## Instructions -/

/-- The line table with an entry for the next instruction, if its line is known and is not
the one of the last entry. -/
def linesHere (b : Builder) : Array LineMark :=
  match b.line with
  | none => b.lines
  | some line =>
    if b.lines.back?.map (·.line) = some line then b.lines else b.lines.push ⟨b.pc, line⟩

/-- Add an instruction. -/
def emit (b : Builder) (i : Instruction) : Builder :=
  { b with lines := b.linesHere, code := b.code.push i }

/-- Add a call of the native function of a name, with as many arguments as it takes. Nothing
is added for an unknown name. -/
def emitNative? (b : Builder) (name : String) : Option Builder :=
  match b.natives.idOf? name with
  | none => none
  | some id => (b.natives.arityOf? id).map fun argc => b.emit (.callNative id argc)

/-- Add an instruction whose target is set later. -/
def emitOpen (b : Builder) (i : Instruction) : Builder × Label :=
  (b.emit i, ⟨b.pc⟩)

/-- Set the target of a label's instruction. -/
def bind (b : Builder) (label : Label) (target : Nat) : Builder :=
  { b with code := b.code.modify label.pc (Instruction.retarget target) }

/-- Set the target of a label's instruction to the position of the next one. -/
def bindHere (b : Builder) (label : Label) : Builder :=
  b.bind label b.pc

/-! ## Marks and natives -/

/-- The source line of the instructions that follow. -/
def setLine (b : Builder) (line : UInt32) : Builder :=
  { b with line := some line }

/-- A function starts at the next instruction. -/
def markFunction (b : Builder) (name : String) : Builder :=
  { b with functions := b.functions.push ⟨name, b.pc⟩ }

/-- Register a native function with the program's table. -/
def register (b : Builder) (native : Native) : Builder × NativeId :=
  let (natives, id) := b.natives.register native
  ({ b with natives }, id)

/-- The finished program. Marks were made at ascending positions, so they are in order. -/
def build (b : Builder) : Program where
  name := b.name
  code := b.code
  functions := b.functions
  lines := b.lines
  natives := b.natives

end Builder

end QueryMachine
