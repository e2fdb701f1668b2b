import QueryMachine.RewindStack
import QueryMachine.Machine.Interrupt
import QueryMachine.Machine.Settings

/-!
# The state of a run

A `Machine` holds everything that a run changes. It has three stacks that rewind together
whenever a pending branch is taken up again (operands, the recorded path, and the activations
of scopes), and a register file that does not rewind.
-/

namespace QueryMachine

/-! ## What the stacks hold -/

/-- What can lie on the operand stack or in a register. -/
inductive Operand where
  | value (v : Value)
  /-- A position to call, with the activation that its variables are looked up from. -/
  | closure (pc : Nat) (scope : Option Nat)
  /-- The entries that an iteration has still to visit. -/
  | entries (rest : List (Value × Value))
  deriving Repr

instance : Inhabited Operand := ⟨.value .null⟩

namespace Operand

/-- The name of an operand's kind in error messages. -/
def kindName : Operand → String
  | .value _ => "value"
  | .closure .. => "closure"
  | .entries _ => "entries"

/-- The value of an operand that is one. -/
def toValue : Operand → Except Fault Value
  | .value v => .ok v
  | other => .error (.invalidOperand "value" other.kindName)

/-- An operand that holds an array, with one more item at its end; any other stays as it is. -/
def gather (v : Value) : Operand → Operand
  | .value (.array items) => .value (.array (items.push v))
  | other => other

end Operand

/-- One activation of a scope. -/
structure Activation where
  scope : ScopeId
  /-- The first register of this activation. -/
  base : Nat
  /-- The position of the instruction that called the scope. -/
  returnPc : Nat
  /-- The caller's activation, current again after the return. -/
  saved : Option Nat
  deriving DecidableEq, Repr, Inhabited

/-- A call on its way to the scope instruction of the called code. -/
structure PendingCall where
  returnPc : Nat
  /-- The activation that the new one is to be linked to. -/
  caller : Option Nat
  deriving DecidableEq, Repr, Inhabited

/-- A record of the path stack. -/
inductive PathRecord where
  /-- A path starts at this value, inside the path whose start lies in the cell `outer`. -/
  | start (value : Value) (outer : Option Nat)
  /-- The path goes on by a component to a value. -/
  | step (component : Value) (value : Value)
  deriving Repr, Inhabited

namespace PathRecord

/-- The value that the path has reached here. -/
def value : PathRecord → Value
  | .start v _ => v
  | .step _ v => v

/-- The component of a step. -/
def component? : PathRecord → Option Value
  | .start .. => none
  | .step c _ => some c

end PathRecord

/-- The instructions that leave a branch behind. -/
inductive BranchKind where
  | fork
  | forkOpt
  | forkLabel
  | each
  deriving DecidableEq, Repr, Inhabited

namespace BranchKind

/-- The mnemonic of the instruction. -/
def mnemonic : BranchKind → String
  | .fork => "fork"
  | .forkOpt => "forkopt"
  | .forkLabel => "forklabel"
  | .each => "each"

end BranchKind

/-- A remembered alternative: the instruction to resume at, and how to rewind to it. -/
structure BranchPoint where
  pc : Nat
  kind : BranchKind
  stack : Savepoint
  scopes : Savepoint
  paths : Savepoint
  pathDepth : Option Nat
  deriving DecidableEq, Repr, Inhabited

/-- The stack that instructions take their operands from. -/
abbrev OperandStack := RewindStack Operand

/-! ## The machine -/

/-- The state of a run. -/
structure Machine where
  /-- The position of the next instruction. -/
  pc : Nat := 0
  stack : OperandStack := RewindStack.empty
  paths : RewindStack PathRecord := .empty
  scopes : RewindStack Activation := .empty
  registers : Array Operand := #[]
  /-- The first register that no activation has taken yet. It never goes down. -/
  offset : Nat := 0
  /-- The pending alternatives, the most recent first. -/
  branches : List BranchPoint := []
  /-- The next instruction takes up an alternative instead of executing forward. -/
  resuming : Bool := false
  /-- The fault that is looking for a handler. -/
  fault : Option Fault := none
  /-- The cell in which the innermost open path starts. -/
  pathDepth : Option Nat := none
  pendingCall : Option PendingCall := none
  /-- The last item has been given out. -/
  finished : Bool := false
  /-- Instructions since the last look at the interrupt. -/
  ticks : Nat := 0
  interrupt : Option Interrupt := none
  signals : Signals := {}
  settings : Settings := {}

namespace Machine

instance : Inhabited Machine := ⟨{}⟩

/-- A machine as good as new, whatever it did before. -/
def reset (m : Machine) : Machine :=
  { m with
    pc := 0
    stack := .empty
    paths := .empty
    scopes := .empty
    registers := #[]
    offset := 0
    branches := []
    resuming := false
    fault := none
    pathDepth := none
    pendingCall := none
    finished := false
    ticks := 0
    interrupt := none
    signals := {} }

/-- Prepare a machine, new or used, for a run over an input. -/
def load (m : Machine) (settings : Settings) (input : Value) (interrupt : Option Interrupt) :
    Machine :=
  let fresh := m.reset
  { fresh with
    registers := Array.replicate settings.initialRegisters default
    settings
    interrupt
    stack := fresh.stack.push (.value input) }

/-- A path is being recorded. -/
def tracksPath (m : Machine) : Bool :=
  !m.paths.isEmpty

/-- The value that the recorded path has reached. -/
def reached? (m : Machine) : Option Value :=
  m.paths.top?.map (·.value)

/-- Whether a value is the one that the recorded path has reached. -/
def isReached (m : Machine) (v : Value) : Bool :=
  m.reached?.any (·.equal v)

end Machine

end QueryMachine
