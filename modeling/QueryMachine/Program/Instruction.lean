import QueryMachine.Native.Table
import QueryMachine.Value.Text

/-!
# Instructions

The instruction set, and what can be said of an instruction on its own: its mnemonic, its
operation code, its text, the target it jumps to if it has one, and whether a suspended run
can resume at it.
-/

namespace QueryMachine

/-- The static identity of a scope. -/
abbrev ScopeId := UInt32

/-- A variable: a slot in the nearest live activation of a scope. -/
structure Address where
  scope : ScopeId
  slot : Nat
  deriving DecidableEq, Repr, Inhabited

/-- One instruction with its operand. -/
inductive Instruction where
  /-- Do nothing. -/
  | nop
  /-- Push a value. -/
  | push (v : Value)
  /-- Drop the top of the stack. -/
  | pop
  /-- Push the top of the stack again. -/
  | dup
  /-- Exchange the two topmost operands. -/
  | swap
  /-- Replace the top of the stack by a value. -/
  | const (v : Value)
  /-- Push a variable. -/
  | load (address : Address)
  /-- Pop into a variable. -/
  | store (address : Address)
  /-- Pop a value onto the end of the array in a variable. -/
  | append (address : Address)
  /-- Build an object of so many pairs, each pushed as key and value. -/
  | object (pairs : Nat)
  /-- Branch: fall through first, jump to the target afterwards. -/
  | fork (target : Nat)
  /-- Branch: fall through, and jump to the target only to recover from an error. -/
  | forkOpt (target : Nat)
  /-- Branch that absorbs a jump out of its label. -/
  | forkLabel (label : String)
  /-- Give up the current continuation. -/
  | backtrack
  /-- Continue once for every entry of a container. -/
  | each
  /-- Continue at the target. -/
  | jump (target : Nat)
  /-- Pop, and continue at the target if the value is null or false. -/
  | jumpIfNot (target : Nat)
  /-- Call the code at the target. -/
  | call (target : Nat)
  /-- Call a native function. -/
  | callNative (id : NativeId) (argc : Nat)
  /-- Push a closure over the code at the target. -/
  | pushPc (target : Nat)
  /-- Pop a closure and call it. -/
  | callPc
  /-- Enter a scope with so many variables. -/
  | scope (id : ScopeId) (slots : Nat)
  /-- Leave the innermost scope. -/
  | ret
  /-- Start recording a path from the value on top of the stack. -/
  | pathBegin
  /-- Replace the value on top of the stack by the path that led to it. -/
  | pathEnd
  deriving Repr, Inhabited

namespace Instruction

/-- The name in listings. -/
def mnemonic : Instruction → String
  | .nop => "nop"
  | .push _ => "push"
  | .pop => "pop"
  | .dup => "dup"
  | .swap => "swap"
  | .const _ => "const"
  | .load _ => "load"
  | .store _ => "store"
  | .append _ => "append"
  | .object _ => "object"
  | .fork _ => "fork"
  | .forkOpt _ => "forkopt"
  | .forkLabel _ => "forklabel"
  | .backtrack => "backtrack"
  | .each => "each"
  | .jump _ => "jump"
  | .jumpIfNot _ => "jumpifnot"
  | .call _ => "call"
  | .callNative .. => "callnative"
  | .pushPc _ => "pushpc"
  | .callPc => "callpc"
  | .scope .. => "scope"
  | .ret => "ret"
  | .pathBegin => "pathbegin"
  | .pathEnd => "pathend"

/-- The operation code. Its high digit groups the instructions: stack, variables and
construction, branching, control, paths. -/
def opcode : Instruction → UInt8
  | .nop => 0x00
  | .push _ => 0x01
  | .pop => 0x02
  | .dup => 0x03
  | .swap => 0x04
  | .const _ => 0x05
  | .load _ => 0x10
  | .store _ => 0x11
  | .append _ => 0x12
  | .object _ => 0x18
  | .fork _ => 0x20
  | .forkOpt _ => 0x21
  | .forkLabel _ => 0x22
  | .backtrack => 0x23
  | .each => 0x24
  | .jump _ => 0x30
  | .jumpIfNot _ => 0x31
  | .call _ => 0x32
  | .callNative .. => 0x33
  | .pushPc _ => 0x34
  | .callPc => 0x35
  | .scope .. => 0x36
  | .ret => 0x37
  | .pathBegin => 0x40
  | .pathEnd => 0x41

/-- Whether a run can resume at the instruction: the branches, and the return that suspends a
run with a result. -/
def isResumePoint : Instruction → Bool
  | .fork _ | .forkOpt _ | .forkLabel _ | .each | .ret => true
  | _ => false

/-- Whether the instruction calls a native function. -/
def callsNative : Instruction → Bool
  | .callNative .. => true
  | _ => false

/-! ## Targets -/

/-- The position an instruction refers to, for the instructions that do. -/
def target? : Instruction → Option Nat
  | .fork t | .forkOpt t | .jump t | .jumpIfNot t | .call t | .pushPc t => some t
  | _ => none

/-- The instruction with another target; one without a target stays as it is. -/
def retarget (target : Nat) : Instruction → Instruction
  | .fork _ => .fork target
  | .forkOpt _ => .forkOpt target
  | .jump _ => .jump target
  | .jumpIfNot _ => .jumpIfNot target
  | .call _ => .call target
  | .pushPc _ => .pushPc target
  | other => other

/-! ## Text -/

/-- A position in listings: at least four digits. -/
def positionText (position : Nat) : String :=
  padLeft '0' 4 (toString position)

/-- The text of an operand, with the blank before it. -/
def operandText : Instruction → String
  | .push v | .const v => s!" {v.text}"
  | .load a | .store a | .append a => s!" [{a.scope.toNat},{a.slot}]"
  | .object pairs => s!" {pairs}"
  | .forkLabel label => s!" {label}"
  | .callNative id argc => s!" #{id.toNat} argc={argc}"
  | .scope id slots => s!" [{id.toNat},{slots}]"
  | other => other.target?.elim "" fun target => s!" -> {positionText target}"

/-- The text of an instruction. -/
def text (i : Instruction) : String :=
  i.mnemonic ++ i.operandText

instance : ToString Instruction := ⟨Instruction.text⟩

end Instruction

end QueryMachine
