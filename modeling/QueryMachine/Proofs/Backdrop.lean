import QueryMachine.Proofs.Dispatch

/-!
# What instructions do not look at

Most instructions never look at the registers, at the count of instructions, or at what the host
has chosen. This part of a machine is its `Backdrop`.

* `execute_against`: an instruction that does not look at the backdrop does the same against any
  other;
* `against_callNative`: a native call does too, but it may raise a flag.
-/

namespace QueryMachine

/-! ## Machines against a backdrop -/

/-- The registers, and what the host has chosen. -/
structure Backdrop where
  registers : Array Operand
  offset : Nat
  ticks : Nat
  interrupt : Option Interrupt
  signals : Signals
  settings : Settings

/-- The effect with another machine. -/
def Effect.map (f : Machine → Machine) : Effect → Effect
  | .next m => .next (f m)
  | .jump m target => .jump (f m) target
  | .stop m => .stop (f m)
  | .yield m v => .yield (f m) v
  | .fail m fault => .fail (f m) fault

/-- The progress with another machine. -/
def Progress.map (f : Machine → Machine) : Progress → Progress
  | .running m => .running (f m)
  | .done m item => .done (f m) item

theorem Effect.machine_map (f : Machine → Machine) (effect : Effect) :
    (effect.map f).machine = f effect.machine := by
  cases effect <;> rfl

theorem Progress.machine_map (f : Machine → Machine) (progress : Progress) :
    (progress.map f).machine = f progress.machine := by
  cases progress <;> rfl

/-- Whether an instruction looks at the backdrop of a machine, or changes it. -/
def Instruction.looksBehind : Instruction → Bool
  | .load _ | .store _ | .append _ | .scope .. | .callNative .. => true
  | _ => false

namespace Machine

variable {m m' : Machine} {p : Program} {i : Instruction}

/-- The backdrop of a machine. -/
def backdrop (m : Machine) : Backdrop where
  registers := m.registers
  offset := m.offset
  ticks := m.ticks
  interrupt := m.interrupt
  signals := m.signals
  settings := m.settings

/-- The machine against another backdrop. -/
def against (m : Machine) (b : Backdrop) : Machine :=
  { m with
    registers := b.registers
    offset := b.offset
    ticks := b.ticks
    interrupt := b.interrupt
    signals := b.signals
    settings := b.settings }

theorem against_backdrop (m : Machine) : m.against m.backdrop = m := rfl

variable (b : Backdrop)

/-! ## Operands -/

theorem against_popOperand (m : Machine) :
    (m.against b).popOperand = m.popOperand.map fun popped => (popped.1, popped.2.against b) := by
  rw [popOperand, popOperand, show (m.against b).stack = m.stack from rfl]
  cases m.stack.pop? with
  | none => rfl
  | some popped => rfl

theorem against_popValue (m : Machine) :
    (m.against b).popValue = m.popValue.map fun popped => (popped.1, popped.2.against b) := by
  rw [popValue, popValue, against_popOperand]
  cases m.popOperand with
  | error fault => rfl
  | ok popped =>
    dsimp only [Except.map]
    cases popped.1.toValue with
    | error fault => rfl
    | ok v => rfl

theorem against_popValues (m : Machine) (count : Nat) :
    (m.against b).popValues count =
      (m.popValues count).map fun popped => (popped.1, popped.2.against b) := by
  induction count generalizing m with
  | zero => rfl
  | succ count ih =>
    rw [popValues, popValues, against_popValue]
    cases m.popValue with
    | error fault => rfl
    | ok popped =>
      dsimp only [Except.map]
      rw [ih popped.2]
      cases popped.2.popValues count with
      | error fault => rfl
      | ok rest => rfl

theorem against_popPairs (m : Machine) (following : List (String × Value)) (count : Nat) :
    (m.against b).popPairs following count =
      (m.popPairs following count).map fun popped => (popped.1, popped.2.against b) := by
  induction count generalizing m following with
  | zero => rfl
  | succ count ih =>
    rw [popPairs, popPairs, against_popValue]
    cases m.popValue with
    | error fault => rfl
    | ok once =>
      dsimp only [Except.map]
      rw [against_popValue]
      cases once.2.popValue with
      | error fault => rfl
      | ok twice =>
        obtain ⟨key, twice⟩ := twice
        dsimp only [Except.map]
        cases key with
        | string key => exact ih twice _
        | _ => rfl

theorem against_dropTop (m : Machine) :
    (m.against b).dropTop = m.dropTop.map (·.against b) := by
  rw [dropTop, dropTop, against_popOperand]
  cases m.popOperand with
  | error fault => rfl
  | ok popped => rfl

theorem against_duplicate (m : Machine) :
    (m.against b).duplicate = m.duplicate.map (·.against b) := by
  rw [duplicate, duplicate, show (m.against b).stack = m.stack from rfl]
  cases m.stack.top? with
  | none => rfl
  | some x => rfl

theorem against_exchange (m : Machine) :
    (m.against b).exchange = m.exchange.map (·.against b) := by
  rw [exchange, exchange, against_popOperand]
  cases m.popOperand with
  | error fault => rfl
  | ok once =>
    dsimp only [Except.map]
    rw [against_popOperand]
    cases once.2.popOperand with
    | error fault => rfl
    | ok twice => rfl

theorem against_replaceTop (m : Machine) (v : Value) :
    (m.against b).replaceTop v = (m.replaceTop v).map (·.against b) := by
  rw [replaceTop, replaceTop, against_popOperand]
  cases m.popOperand with
  | error fault => rfl
  | ok popped => rfl

theorem against_buildObject (m : Machine) (pairs : Nat) :
    (m.against b).buildObject pairs = (m.buildObject pairs).map (·.against b) := by
  rw [buildObject, buildObject, against_popPairs]
  cases m.popPairs [] pairs with
  | error fault => rfl
  | ok popped => rfl

theorem against_jumpUnless (m : Machine) (target : Nat) :
    (m.against b).jumpUnless target = (m.jumpUnless target).map (·.against b) := by
  rw [jumpUnless, jumpUnless, against_popValue]
  cases m.popValue with
  | error fault => rfl
  | ok popped =>
    dsimp only [Except.map]
    cases popped.1.isTruthy <;> rfl

/-! ## Calls and returns -/

theorem against_callClosure (m : Machine) :
    (m.against b).callClosure = m.callClosure.map (·.against b) := by
  rw [callClosure, callClosure, against_popOperand]
  cases m.popOperand with
  | error fault => rfl
  | ok popped =>
    obtain ⟨x, popped⟩ := popped
    cases x with
    | value v => rfl
    | closure target scope => rfl
    | entries rest => rfl

theorem against_leaveScope (m : Machine) :
    (m.against b).leaveScope = m.leaveScope.map (·.against b) := by
  rw [leaveScope, leaveScope, against_popValue, show (m.against b).resuming = m.resuming from rfl,
    show (m.against b).fault = m.fault from rfl, show (m.against b).scopes = m.scopes from rfl]
  cases m.resuming || m.fault.isSome with
  | true => rfl
  | false =>
    cases m.scopes.pop? with
    | none => rfl
    | some popped =>
      obtain ⟨activation, below⟩ := popped
      simp only [Bool.false_eq_true, if_false]
      split
      · cases m.popValue with
        | error fault => rfl
        | ok popped => rfl
      · rfl

/-! ## Branching -/

theorem against_fork (m : Machine) (target : Nat) :
    (m.against b).fork target = (m.fork target).map (·.against b) := by
  rw [fork, fork]
  show (if !m.resuming then _ else if m.fault.isSome then _ else _ : Effect) = _
  split
  · rfl
  · split <;> rfl

theorem against_forkOpt (m : Machine) (target : Nat) :
    (m.against b).forkOpt target = (m.forkOpt target).map (·.against b) := by
  rw [forkOpt, forkOpt, show (m.against b).fault = m.fault from rfl]
  show (if !m.resuming then _ else _ : Effect) = _
  split
  · rfl
  · cases m.fault with
    | none => rfl
    | some fault =>
      dsimp only
      split <;> rfl

theorem against_forkLabel (m : Machine) (label : String) :
    (m.against b).forkLabel label = (m.forkLabel label).map (·.against b) := by
  rw [forkLabel, forkLabel]
  show (if !m.resuming then _ else if m.isLeaving label then _ else _ : Effect) = _
  split
  · rfl
  · split <;> rfl

theorem against_entriesOf (m : Machine) (x : Operand) :
    (m.against b).entriesOf x = m.entriesOf x := by
  cases x with
  | value v => rfl
  | closure pc scope => rfl
  | entries rest => rfl

theorem against_suspendEntries (m : Machine) (rest : List (Value × Value)) :
    (m.against b).suspendEntries rest = (m.suspendEntries rest).against b := by
  rw [suspendEntries, suspendEntries]
  split <;> rfl

theorem against_visit (m : Machine) (key v : Value) :
    (m.against b).visit key v = (m.visit key v).against b := by
  rw [visit, visit, show (m.against b).tracksPath = m.tracksPath from rfl]
  cases m.tracksPath <;> rfl

theorem against_iterate (m : Machine) :
    (m.against b).iterate = m.iterate.map (·.against b) := by
  rw [iterate, iterate, against_popOperand]
  show (if m.fault.isSome then _ else _ : Effect) = _
  split
  · rfl
  · cases m.popOperand with
    | error fault => rfl
    | ok popped =>
      dsimp only [Except.map]
      rw [against_entriesOf]
      cases popped.2.entriesOf popped.1 with
      | error fault => rfl
      | ok entries =>
        cases entries with
        | nil => rfl
        | cons entry rest =>
          have hresumed : { popped.2.against b with resuming := false } =
              against { popped.2 with resuming := false } b := rfl
          dsimp only
          rw [hresumed, against_suspendEntries, against_visit]
          rfl

/-! ## Recorded paths -/

theorem against_openPath (m : Machine) :
    (m.against b).openPath = m.openPath.map (·.against b) := by
  rw [openPath, openPath, show (m.against b).stack = m.stack from rfl]
  cases m.stack.top? with
  | none => rfl
  | some x =>
    dsimp only
    cases x.toValue with
    | error fault => rfl
    | ok v => rfl

theorem against_closePath (m : Machine) :
    (m.against b).closePath = m.closePath.map (·.against b) := by
  rw [closePath, closePath, against_popValue, show (m.against b).pathDepth = m.pathDepth from rfl]
  cases m.pathDepth with
  | none => rfl
  | some start =>
    cases m.popValue with
    | error fault => rfl
    | ok popped =>
      dsimp only [Except.map]
      rw [show (popped.2.against b).isReached popped.1 = popped.2.isReached popped.1 from rfl,
        show (popped.2.against b).paths = popped.2.paths from rfl]
      split
      · rfl
      · cases (popped.2.paths.setTop (some start)).pop? with
        | none => rfl
        | some cut =>
          obtain ⟨record, paths⟩ := cut
          cases record with
          | start v outer => rfl
          | step component v => rfl

/-! ## Native calls -/

theorem against_popCall (m : Machine) (argc : Nat) :
    (m.against b).popCall argc =
      (m.popCall argc).map fun popped => (popped.1, popped.2.1, popped.2.2.against b) := by
  rw [popCall, popCall, against_popValue]
  cases m.popValue with
  | error fault => rfl
  | ok once =>
    dsimp only [Except.map]
    rw [against_popValues]
    cases once.2.popValues argc with
    | error fault => rfl
    | ok rest => rfl

theorem against_recordStep (m : Machine) (role : Role) (args : List Value) (output : Value) :
    (m.against b).recordStep role args output =
      (m.recordStep role args output).map (·.against b) := by
  rw [recordStep, recordStep, show (m.against b).tracksPath = m.tracksPath from rfl]
  generalize role.subject?.bind (args[·]?) = subject
  generalize role.component? args = component
  split
  · rfl
  · cases subject with
    | none => rfl
    | some subject =>
      cases component with
      | none => rfl
      | some component =>
        dsimp only
        rw [show (m.against b).isReached subject = m.isReached subject from rfl]
        split <;> rfl

/-- A native call does the same against another backdrop, in which it may raise a flag. -/
theorem against_callNative (m : Machine) (table : NativeTable) (id : NativeId) (argc : Nat) :
    ∃ signals, (m.against b).callNative table id argc =
      (m.callNative table id argc).map (·.against { b with signals }) := by
  rw [callNative, callNative, against_popCall]
  cases m.popCall argc with
  | error fault => exact ⟨b.signals, rfl⟩
  | ok popped =>
    obtain ⟨input, args, popped⟩ := popped
    obtain ⟨own, hown⟩ := tripFlag_eq popped table id argc
    obtain ⟨signals, hsignals⟩ := tripFlag_eq (popped.against b) table id argc
    refine ⟨signals, ?_⟩
    have hcalled : (popped.against b).tripFlag table id argc =
        (popped.tripFlag table id argc).against { b with signals } := by
      rw [hown, hsignals]
      rfl
    dsimp only [Except.map]
    rw [hcalled]
    cases table.call id input args with
    | error failure => rfl
    | ok output =>
      dsimp only
      rw [against_recordStep]
      cases (popped.tripFlag table id argc).recordStep (table.roleOf id) args output with
      | error fault => rfl
      | ok recorded => rfl

/-! ## Instructions -/

/-- An instruction that does not look at the backdrop does the same against any other. -/
theorem execute_against (m : Machine) (p : Program) (hi : i.looksBehind = false) :
    (m.against b).execute p i = (m.execute p i).map (·.against b) := by
  cases i with
  | nop | push | backtrack | jump | call | pushPc => rfl
  | pop => exact against_dropTop b m
  | dup => exact against_duplicate b m
  | swap => exact against_exchange b m
  | const v => exact against_replaceTop b m v
  | object pairs => exact against_buildObject b m pairs
  | fork target => exact against_fork b m target
  | forkOpt target => exact against_forkOpt b m target
  | forkLabel label => exact against_forkLabel b m label
  | each => exact against_iterate b m
  | jumpIfNot target => exact against_jumpUnless b m target
  | callPc => exact against_callClosure b m
  | ret => exact against_leaveScope b m
  | pathBegin => exact against_openPath b m
  | pathEnd => exact against_closePath b m
  | load | store | append | scope | callNative => cases hi

/-- So it leaves the backdrop as it is. -/
theorem backdrop_execute (m : Machine) (p : Program) (hi : i.looksBehind = false) :
    (m.execute p i).machine.backdrop = m.backdrop := by
  have hsame := execute_against m.backdrop m p hi
  rw [against_backdrop] at hsame
  rw [hsame, Effect.machine_map]
  rfl

end Machine
end QueryMachine
