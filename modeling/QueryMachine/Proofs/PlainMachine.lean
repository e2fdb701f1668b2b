import QueryMachine.Machine.Run

/-!
# The machine without sharing

A `PlainMachine` is a machine whose operand stack and path stack are plain lists. A branch holds
full copies of both, taking it up puts the copies back, and closing a path cuts the list at its
topmost start. Activations of scopes, registers and the list of branches are as in a `Machine`.

This is what a program means. That a `Machine` shares cells between its stacks and uses them
again makes no difference to it.
-/

namespace QueryMachine

/-- A record of the path list. -/
inductive PlainRecord where
  /-- A path starts at this value. -/
  | start (value : Value)
  /-- The path goes on by a component to a value. -/
  | step (component : Value) (value : Value)

namespace PlainRecord

/-- The value that the path has reached here. -/
def value : PlainRecord → Value
  | .start v => v
  | .step _ v => v

end PlainRecord

/-- The components of the innermost path, oldest first, before those above, and the list below
its start. -/
def cutPath (above : List Value) : List PlainRecord → Option (List Value × List PlainRecord)
  | [] => none
  | .start _ :: rest => some (above, rest)
  | .step component _ :: rest => cutPath (component :: above) rest

/-- A remembered alternative, with copies of the lists. -/
structure PlainBranch where
  pc : Nat
  kind : BranchKind
  stack : List Operand
  paths : List PlainRecord
  scopes : Savepoint

/-- The state of a run. -/
structure PlainMachine where
  pc : Nat := 0
  stack : List Operand := []
  paths : List PlainRecord := []
  scopes : RewindStack Activation := .empty
  registers : Array Operand := #[]
  offset : Nat := 0
  branches : List PlainBranch := []
  resuming : Bool := false
  fault : Option Fault := none
  pendingCall : Option PendingCall := none
  finished : Bool := false
  ticks : Nat := 0
  interrupt : Option Interrupt := none
  signals : Signals := {}
  settings : Settings := {}

/-- What an instruction does to the run. -/
inductive PlainEffect where
  | next (m : PlainMachine)
  | jump (m : PlainMachine) (target : Nat)
  | stop (m : PlainMachine)
  | yield (m : PlainMachine) (v : Value)
  | fail (m : PlainMachine) (fault : Fault)

/-- How far a run has come. -/
inductive PlainProgress where
  | running (m : PlainMachine)
  | done (m : PlainMachine) (item : Item)

/-- The machine that the run goes on with. -/
def PlainProgress.machine : PlainProgress → PlainMachine
  | .running m => m
  | .done m _ => m

namespace PlainMachine

/-- A machine that is ready for a run over an input. -/
def load (settings : Settings) (input : Value) (interrupt : Option Interrupt) : PlainMachine where
  registers := Array.replicate settings.initialRegisters default
  settings
  interrupt
  stack := [.value input]

/-! ## Pushing and popping -/

def pushOperand (m : PlainMachine) (x : Operand) : PlainMachine :=
  { m with stack := x :: m.stack }

def pushValue (m : PlainMachine) (v : Value) : PlainMachine :=
  m.pushOperand (.value v)

def popOperand (m : PlainMachine) : Except Fault (Operand × PlainMachine) :=
  match m.stack with
  | x :: stack => .ok (x, { m with stack })
  | [] => .error .stackUnderflow

def popValue (m : PlainMachine) : Except Fault (Value × PlainMachine) :=
  match m.popOperand with
  | .error fault => .error fault
  | .ok (x, m) =>
    match x.toValue with
    | .error fault => .error fault
    | .ok v => .ok (v, m)

def popValues (m : PlainMachine) : Nat → Except Fault (List Value × PlainMachine)
  | 0 => .ok ([], m)
  | count + 1 =>
    match m.popValue with
    | .error fault => .error fault
    | .ok (v, m) =>
      match m.popValues count with
      | .error fault => .error fault
      | .ok (rest, m) => .ok (v :: rest, m)

def popPairs (m : PlainMachine) (following : List (String × Value)) :
    Nat → Except Fault (List (String × Value) × PlainMachine)
  | 0 => .ok (following, m)
  | count + 1 =>
    match m.popValue with
    | .error fault => .error fault
    | .ok (v, m) =>
      match m.popValue with
      | .error fault => .error fault
      | .ok (.string key, m) => m.popPairs ((key, v) :: following) count
      | .ok (key, _) => .error (.keyNotString key)

/-! ## Operand instructions -/

def dropTop (m : PlainMachine) : PlainEffect :=
  match m.popOperand with
  | .error fault => .fail m fault
  | .ok (_, m) => .next m

def duplicate (m : PlainMachine) : PlainEffect :=
  match m.stack.head? with
  | none => .fail m .stackUnderflow
  | some x => .next (m.pushOperand x)

def exchange (m : PlainMachine) : PlainEffect :=
  match m.popOperand with
  | .error fault => .fail m fault
  | .ok (x, once) =>
    match once.popOperand with
    | .error fault => .fail m fault
    | .ok (y, twice) => .next ((twice.pushOperand x).pushOperand y)

def replaceTop (m : PlainMachine) (v : Value) : PlainEffect :=
  match m.popOperand with
  | .error fault => .fail m fault
  | .ok (_, m) => .next (m.pushValue v)

def buildObject (m : PlainMachine) (pairs : Nat) : PlainEffect :=
  match m.popPairs [] pairs with
  | .error fault => .fail m fault
  | .ok (entries, m) => .next (m.pushValue (.ofEntries entries))

def jumpUnless (m : PlainMachine) (target : Nat) : PlainEffect :=
  match m.popValue with
  | .error fault => .fail m fault
  | .ok (condition, m) => if condition.isTruthy then .next m else .jump m target

/-! ## Scopes, calls and variables -/

def callAt (m : PlainMachine) (target : Nat) : PlainEffect :=
  .jump { m with pendingCall := some ⟨m.pc, m.scopes.top⟩ } target

def pushClosure (m : PlainMachine) (target : Nat) : PlainEffect :=
  .next (m.pushOperand (.closure target m.scopes.top))

def callClosure (m : PlainMachine) : PlainEffect :=
  match m.popOperand with
  | .error fault => .fail m fault
  | .ok (.closure target scope, m) => .jump { m with pendingCall := some ⟨m.pc, scope⟩ } target
  | .ok (other, _) => .fail m (.invalidOperand "closure" other.kindName)

def enterScope (m : PlainMachine) (id : ScopeId) (slots programLength : Nat) : PlainEffect :=
  let call := m.pendingCall.getD ⟨programLength, m.scopes.top⟩
  let activation : Activation := ⟨id, m.offset, call.returnPc, m.scopes.top⟩
  .next { m with
    pendingCall := none
    scopes := (Machine.calleeScopes m.scopes call.caller).push activation
    offset := m.offset + slots
    registers := Machine.growRegisters m.registers (m.offset + slots) }

def leaveScope (m : PlainMachine) : PlainEffect :=
  if m.resuming || m.fault.isSome then .stop m
  else
    match m.scopes.pop? with
    | none => .fail m .stackUnderflow
    | some (activation, below) =>
      let scopes := below.setTop activation.saved
      if scopes.isEmpty then
        match m.popValue with
        | .error fault => .fail { m with scopes } fault
        | .ok (v, m) => .yield { m with scopes } v
      else .jump { m with scopes } (activation.returnPc + 1)

def register (m : PlainMachine) (a : Address) : Except Fault Nat :=
  match m.scopes.find? (·.scope == a.scope) with
  | none => .error (.unknownScope a.scope)
  | some activation =>
    let place := activation.base + a.slot
    if place < m.registers.size then .ok place else .error (.registerOutOfBounds place)

def loadVariable (m : PlainMachine) (a : Address) : PlainEffect :=
  match m.register a with
  | .error fault => .fail m fault
  | .ok place => .next (m.pushOperand (m.registers.getD place default))

def storeVariable (m : PlainMachine) (a : Address) : PlainEffect :=
  match m.register a with
  | .error fault => .fail m fault
  | .ok place =>
    match m.popOperand with
    | .error fault => .fail m fault
    | .ok (x, m) => .next { m with registers := m.registers.setIfInBounds place x }

def appendVariable (m : PlainMachine) (a : Address) : PlainEffect :=
  match m.register a with
  | .error fault => .fail m fault
  | .ok place =>
    match m.popValue with
    | .error fault => .fail m fault
    | .ok (v, popped) =>
      match popped.registers.getD place default with
      | .value (.array _) =>
        .next { popped with registers := popped.registers.modify place (.gather v) }
      | .value other => .fail m (.invalidOperand "array" other.typeName)
      | other => .fail m (.invalidOperand "array" other.kindName)

/-! ## Recorded paths -/

/-- A path is being recorded. -/
def tracksPath (m : PlainMachine) : Bool :=
  !m.paths.isEmpty

/-- Whether a value is the one that the recorded path has reached. -/
def isReached (m : PlainMachine) (v : Value) : Bool :=
  (m.paths.head?.map (·.value)).any (·.equal v)

def openPath (m : PlainMachine) : PlainEffect :=
  match m.stack.head? with
  | none => .fail m .stackUnderflow
  | some x =>
    match x.toValue with
    | .error fault => .fail m fault
    | .ok v => .next { m with paths := .start v :: m.paths }

def closePath (m : PlainMachine) : PlainEffect :=
  match cutPath [] m.paths with
  | none => .fail m .stackUnderflow
  | some (components, paths) =>
    match m.popValue with
    | .error fault => .fail m fault
    | .ok (v, popped) =>
      if !popped.isReached v then .fail m (.invalidPath v)
      else .next ({ popped with paths }.pushValue (.array components.toArray))

def recordStep (m : PlainMachine) (role : Role) (args : List Value) (output : Value) :
    Except Fault PlainMachine :=
  if !m.tracksPath then .ok m
  else
    match role.subject?.bind (args[·]?), role.component? args with
    | some subject, some component =>
      if m.isReached subject then .ok { m with paths := .step component output :: m.paths }
      else .error (.invalidPath subject)
    | _, _ => .ok m

/-! ## Native calls -/

def popCall (m : PlainMachine) (argc : Nat) :
    Except Fault (Value × List Value × PlainMachine) :=
  match m.popValue with
  | .error fault => .error fault
  | .ok (input, m) =>
    match m.popValues argc with
    | .error fault => .error fault
    | .ok (args, m) => .ok (input, args, m)

def tripFlag (m : PlainMachine) (table : NativeTable) (id : NativeId) (argc : Nat) :
    PlainMachine :=
  match table.resolve id argc with
  | .ok native => { m with signals := m.signals.raise? native.trips }
  | .error _ => m

def callNative (m : PlainMachine) (table : NativeTable) (id : NativeId) (argc : Nat) :
    PlainEffect :=
  match m.popCall argc with
  | .error fault => .fail m fault
  | .ok (input, args, popped) =>
    let called := popped.tripFlag table id argc
    match table.call id input args with
    | .error failure => .fail called (.ofFailure failure)
    | .ok output =>
      match called.recordStep (table.roleOf id) args output with
      | .error fault => .fail called fault
      | .ok recorded => .next (recorded.pushValue output)

/-! ## Branching -/

/-- Remember the present state as a branch of this instruction. -/
def pushBranch (m : PlainMachine) (kind : BranchKind) : PlainMachine :=
  { m with
    branches := ⟨m.pc, kind, m.stack, m.paths, m.scopes.savepoint⟩ :: m.branches
    scopes := m.scopes.freeze }

/-- Go back to a branch point. -/
def rewind (m : PlainMachine) (branch : PlainBranch) : PlainMachine :=
  { m with
    stack := branch.stack
    paths := branch.paths
    scopes := m.scopes.restore branch.scopes
    pendingCall := none
    pc := branch.pc
    resuming := true }

def raise (m : PlainMachine) (fault : Fault) : PlainMachine :=
  { m with
    fault := some fault
    branches := if fault.isFatal then [] else m.branches }

def fork (m : PlainMachine) (target : Nat) : PlainEffect :=
  if !m.resuming then .next (m.pushBranch .fork)
  else if m.fault.isSome then .stop m
  else .jump { m with resuming := false } target

def forkOpt (m : PlainMachine) (target : Nat) : PlainEffect :=
  if !m.resuming then .next (m.pushBranch .forkOpt)
  else
    match m.fault with
    | none => .stop m
    | some fault =>
      if fault.isCatchable then
        .jump ({ m with fault := none, resuming := false }.pushValue fault.caught) target
      else .stop m

def isLeaving (m : PlainMachine) (label : String) : Bool :=
  match m.fault with
  | some (.exit raised) => raised == label
  | _ => false

def forkLabel (m : PlainMachine) (label : String) : PlainEffect :=
  if !m.resuming then .next (m.pushBranch .forkLabel)
  else if m.isLeaving label then .stop { m with fault := none }
  else .stop m

/-- The entries that an operand still has to visit. -/
def entriesOf (m : PlainMachine) : Operand → Except Fault (List (Value × Value))
  | .entries rest => .ok rest
  | .value v =>
    if m.tracksPath && !m.isReached v then .error (.invalidPath v)
    else
      match v.keyed? with
      | some entries => .ok entries
      | none => .error (.notIterable v)
  | other => .error (.invalidOperand "value" other.kindName)

/-- Leave the entries that remain on the copy of a branch. -/
def suspendEntries (m : PlainMachine) (rest : List (Value × Value)) : PlainMachine :=
  if rest.isEmpty then m
  else { (m.pushOperand (.entries rest)).pushBranch .each with stack := m.stack }

/-- Go into an entry. -/
def visit (m : PlainMachine) (key v : Value) : PlainMachine :=
  let recorded := if m.tracksPath then { m with paths := .step key v :: m.paths } else m
  recorded.pushValue v

def iterate (m : PlainMachine) : PlainEffect :=
  if m.fault.isSome then .stop m
  else
    match m.popOperand with
    | .error fault => .fail m fault
    | .ok (x, popped) =>
      match popped.entriesOf x with
      | .error fault => .fail m fault
      | .ok [] => .stop popped
      | .ok ((key, v) :: rest) =>
        .next (({ popped with resuming := false }.suspendEntries rest).visit key v)

/-! ## Running a program -/

/-- Carry out an instruction. -/
def execute (m : PlainMachine) (p : Program) : Instruction → PlainEffect
  | .nop => .next m
  | .push v => .next (m.pushValue v)
  | .pop => m.dropTop
  | .dup => m.duplicate
  | .swap => m.exchange
  | .const v => m.replaceTop v
  | .load a => m.loadVariable a
  | .store a => m.storeVariable a
  | .append a => m.appendVariable a
  | .object pairs => m.buildObject pairs
  | .fork target => m.fork target
  | .forkOpt target => m.forkOpt target
  | .forkLabel label => m.forkLabel label
  | .backtrack => .stop m
  | .each => m.iterate
  | .jump target => .jump m target
  | .jumpIfNot target => m.jumpUnless target
  | .call target => m.callAt target
  | .callNative id argc => m.callNative p.natives id argc
  | .pushPc target => m.pushClosure target
  | .callPc => m.callClosure
  | .scope id slots => m.enterScope id slots p.length
  | .ret => m.leaveScope
  | .pathBegin => m.openPath
  | .pathEnd => m.closePath

/-- Whether the interrupt is looked at before an instruction. -/
def pollsAt (m : PlainMachine) (i : Instruction) : Bool :=
  m.settings.pollInterval.toNat ≤ m.ticks || i.callsNative

/-- The reason to stop, if there is one. -/
def tripped? (m : PlainMachine) : Option CancelReason :=
  m.interrupt.bind (·.check m.signals)

/-- Count an instruction, look at the interrupt if it is time to, and carry it out. -/
def step (m : PlainMachine) (p : Program) (i : Instruction) : PlainEffect :=
  let counted := { m with ticks := m.ticks + 1 }
  if counted.pollsAt i then
    let polled := { counted with ticks := 0 }
    match polled.tripped? with
    | some reason => .fail polled (.canceled reason)
    | none => polled.execute p i
  else counted.execute p i

/-- Take up the most recent branch. Without one the run is over. -/
def unwind (m : PlainMachine) : PlainProgress :=
  match m.branches with
  | branch :: older => .running ({ m with branches := older }.rewind branch)
  | [] => .done { m with fault := none, finished := true } (m.fault.map .error)

/-- Where the run goes after an instruction. -/
def follow : PlainEffect → PlainProgress
  | .next m => .running { m with pc := m.pc + 1 }
  | .jump m target => .running { m with pc := target }
  | .stop m => m.unwind
  | .yield m v => .done { m with resuming := true } (some (.ok v))
  | .fail m fault => (m.raise fault).unwind

/-- One step of the run. -/
def dispatch (p : Program) (m : PlainMachine) : PlainProgress :=
  if m.finished then .done m none
  else
    match p.at? m.pc with
    | none => m.unwind
    | some i => follow (m.step p i)

/-- Run until the next item, for at most so many dispatches. -/
def pull (p : Program) (m : PlainMachine) : Nat → PlainProgress
  | 0 => .running m
  | fuel + 1 =>
    match dispatch p m with
    | .running m => pull p m fuel
    | .done m item => .done m item

/-! ## Where a dispatch goes -/

variable {p : Program} {m : PlainMachine} {i : Instruction}

theorem unwind_cons {b : PlainBranch} {older : List PlainBranch} (h : m.branches = b :: older) :
    m.unwind = .running ({ m with branches := older }.rewind b) := by
  unfold unwind
  rw [h]

theorem unwind_nil (h : m.branches = []) :
    m.unwind = .done { m with fault := none, finished := true } (m.fault.map .error) := by
  unfold unwind
  rw [h]

theorem dispatch_finished (h : m.finished = true) : dispatch p m = .done m none := by
  simp only [dispatch, h, if_true]

theorem dispatch_outside (hrunning : m.finished = false) (hat : p.at? m.pc = none) :
    dispatch p m = m.unwind := by
  simp only [dispatch, hrunning, hat, Bool.false_eq_true, if_false]

theorem dispatch_at (hrunning : m.finished = false) (hat : p.at? m.pc = some i) :
    dispatch p m = follow (m.step p i) := by
  simp only [dispatch, hrunning, hat, Bool.false_eq_true, if_false]

end PlainMachine
end QueryMachine
