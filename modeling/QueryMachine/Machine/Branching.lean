import QueryMachine.Machine.Operands
import QueryMachine.Value.Navigation

/-!
# Branching

A branch instruction leaves a `BranchPoint` behind, with savepoints of the three stacks. When
a continuation ends, the most recent branch point is taken up: the stacks go back to its
savepoints and its instruction runs again, this time resuming, to choose the alternative.
A fault travels the same way until a branch handles it.
-/

namespace QueryMachine

namespace Machine

/-! ## Branch points -/

/-- Remember the present state as a branch of this instruction. -/
def pushBranch (m : Machine) (kind : BranchKind) : Machine :=
  let branch : BranchPoint :=
    { pc := m.pc
      kind
      stack := m.stack.savepoint
      scopes := m.scopes.savepoint
      paths := m.paths.savepoint
      pathDepth := m.pathDepth }
  { m with
    branches := branch :: m.branches
    stack := m.stack.freeze
    scopes := m.scopes.freeze
    paths := m.paths.freeze }

/-- Go back to a branch point; registers keep what they hold. -/
def rewind (m : Machine) (branch : BranchPoint) : Machine :=
  { m with
    stack := m.stack.restore branch.stack
    scopes := m.scopes.restore branch.scopes
    paths := m.paths.restore branch.paths
    pathDepth := branch.pathDepth
    pendingCall := none
    pc := branch.pc
    resuming := true }

/-- Let a fault look for a handler. A fatal one leaves no branch to look at. -/
def raise (m : Machine) (fault : Fault) : Machine :=
  { m with
    fault := some fault
    branches := if fault.isFatal then [] else m.branches }

/-! ## Instructions -/

/-- `fork` -/
def fork (m : Machine) (target : Nat) : Effect :=
  if !m.resuming then .next (m.pushBranch .fork)
  else if m.fault.isSome then .stop m
  else .jump { m with resuming := false } target

/-- `forkopt` -/
def forkOpt (m : Machine) (target : Nat) : Effect :=
  if !m.resuming then .next (m.pushBranch .forkOpt)
  else
    match m.fault with
    | none => .stop m
    | some fault =>
      if fault.isCatchable then
        .jump ({ m with fault := none, resuming := false }.pushValue fault.caught) target
      else .stop m

/-- Whether the fault is a jump out of a label. -/
def isLeaving (m : Machine) (label : String) : Bool :=
  match m.fault with
  | some (.exit raised) => raised == label
  | _ => false

/-- `forklabel`. The continuation that jumped out of the label ends without a result, and the
search goes on with the older branches. -/
def forkLabel (m : Machine) (label : String) : Effect :=
  if !m.resuming then .next (m.pushBranch .forkLabel)
  else if m.isLeaving label then .stop { m with fault := none }
  else .stop m

/-! ## Iteration -/

/-- The entries that an operand still has to visit. While a path is recorded, only the value
that it has reached can be iterated. -/
def entriesOf (m : Machine) : Operand → Except Fault (List (Value × Value))
  | .entries rest => .ok rest
  | .value v =>
    if m.tracksPath && !m.isReached v then .error (.invalidPath v)
    else
      match v.keyed? with
      | some entries => .ok entries
      | none => .error (.notIterable v)
  | other => .error (.invalidOperand "value" other.kindName)

/-- Leave the entries that remain under a branch, so that this instruction takes up the next
one when it resumes. They are on the stack only for the branch's savepoint. -/
def suspendEntries (m : Machine) (rest : List (Value × Value)) : Machine :=
  if rest.isEmpty then m
  else
    -- the savepoint is taken while the entries lie on top
    let branched := (m.pushOperand (.entries rest)).pushBranch .each
    { branched with stack := branched.stack.drop }

/-- Go into an entry: record the step if a path is recorded, and push the value. -/
def visit (m : Machine) (key v : Value) : Machine :=
  let recorded := if m.tracksPath then { m with paths := m.paths.push (.step key v) } else m
  recorded.pushValue v

/-- `each` -/
def iterate (m : Machine) : Effect :=
  if m.fault.isSome then .stop m
  else
    match m.popOperand with
    | .error fault => .fail m fault
    | .ok (x, popped) =>
      match popped.entriesOf x with
      | .error fault => .fail m fault
      | .ok [] => .stop popped
      | .ok ((key, v) :: rest) =>
        .next (({ popped with resuming := false }.suspendEntries rest).visit key v)

end Machine

end QueryMachine
