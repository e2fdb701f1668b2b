import QueryMachine.Machine.Operands

/-!
# Scopes, calls and variables

Activations of scopes lie on a rewinding stack of their own. The chain from the top down is
what variables are looked up in; it follows the program's nesting, not its calls. So a call
through a closure first makes the closure's activation the top and links the new activation
onto it, and remembers the caller's activation for the return.

Every activation gets registers that no other one has had: the register file only grows.
-/

namespace QueryMachine

namespace Machine

/-! ## Calls -/

/-- `call` -/
def callAt (m : Machine) (target : Nat) : Effect :=
  .jump { m with pendingCall := some ⟨m.pc, m.scopes.top⟩ } target

/-- `pushpc` -/
def pushClosure (m : Machine) (target : Nat) : Effect :=
  .next (m.pushOperand (.closure target m.scopes.top))

/-- `callpc` -/
def callClosure (m : Machine) : Effect :=
  match m.popOperand with
  | .error fault => .fail m fault
  | .ok (.closure target scope, m) => .jump { m with pendingCall := some ⟨m.pc, scope⟩ } target
  | .ok (other, _) => .fail m (.invalidOperand "closure" other.kindName)

/-! ## Activations -/

/-- The activations as a callee sees them: if the call came through a closure, the present
chain is frozen, so that the return finds it unchanged, and the closure's chain takes its
place. -/
def calleeScopes (scopes : RewindStack Activation) (caller : Option Nat) :
    RewindStack Activation :=
  if caller = scopes.top then scopes else scopes.freeze.setTop caller

/-- A register file with room for `size` registers; when it has to grow, it grows to twice as
many, and the new ones hold null. -/
def growRegisters (registers : Array Operand) (size : Nat) : Array Operand :=
  if registers.size < size then
    registers ++ Array.replicate (size * 2 - registers.size) default
  else registers

/-- `scope`. Without a pending call this is the outermost scope, which returns past the end of
the program. -/
def enterScope (m : Machine) (id : ScopeId) (slots programLength : Nat) : Effect :=
  let call := m.pendingCall.getD ⟨programLength, m.scopes.top⟩
  let activation : Activation := ⟨id, m.offset, call.returnPc, m.scopes.top⟩
  .next { m with
    pendingCall := none
    scopes := (calleeScopes m.scopes call.caller).push activation
    offset := m.offset + slots
    registers := growRegisters m.registers (m.offset + slots) }

/-- `ret`. Leaving the outermost activation completes a result. The run is suspended on the
return itself, and when it is resumed there, it turns to the pending branches. -/
def leaveScope (m : Machine) : Effect :=
  if m.resuming || m.fault.isSome then .stop m
  else
    match m.scopes.pop? with
    | none => .fail m .stackUnderflow
    | some (activation, below) =>
      -- the chain below the activation is the closure's; the caller's is the saved one
      let scopes := below.setTop activation.saved
      if scopes.isEmpty then
        match m.popValue with
        | .error fault => .fail { m with scopes } fault
        | .ok (v, m) => .yield { m with scopes } v
      else .jump { m with scopes } (activation.returnPc + 1)

/-! ## Variables -/

/-- The register of a variable: its slot in the nearest activation of its scope. -/
def register (m : Machine) (a : Address) : Except Fault Nat :=
  match m.scopes.find? (·.scope == a.scope) with
  | none => .error (.unknownScope a.scope)
  | some activation =>
    let place := activation.base + a.slot
    if place < m.registers.size then .ok place else .error (.registerOutOfBounds place)

/-- `load` -/
def loadVariable (m : Machine) (a : Address) : Effect :=
  match m.register a with
  | .error fault => .fail m fault
  | .ok place => .next (m.pushOperand (m.registers.getD place default))

/-- `store` -/
def storeVariable (m : Machine) (a : Address) : Effect :=
  match m.register a with
  | .error fault => .fail m fault
  | .ok place =>
    match m.popOperand with
    | .error fault => .fail m fault
    | .ok (x, m) => .next { m with registers := m.registers.setIfInBounds place x }

/-- `append` -/
def appendVariable (m : Machine) (a : Address) : Effect :=
  match m.register a with
  | .error fault => .fail m fault
  | .ok place =>
    match m.popValue with
    | .error fault => .fail m fault
    | .ok (v, popped) =>
      match popped.registers.getD place default with
      | .value (.array _) =>
        .next { popped with registers := popped.registers.modify place (.gather v) }
      | .value other => .fail m (.invalidOperand "array" other.typeName)
      | other => .fail m (.invalidOperand "array" other.kindName)

end Machine

end QueryMachine
