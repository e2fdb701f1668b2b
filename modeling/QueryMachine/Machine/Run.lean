import QueryMachine.Machine.Scopes
import QueryMachine.Machine.Branching
import QueryMachine.Machine.NativeCall
import QueryMachine.Program.Basic

/-!
# Running a program

`Machine.dispatch` carries out one instruction, or takes up a pending branch when a
continuation has ended; `Machine.pull` repeats it until the run has an item to give.

* An item is a result, the fault that ended the run, or `none` when nothing is left.
* A run can take for ever, so `pull` is given a number of dispatches. When they are used up,
  it hands the machine back, and pulling again goes on from there.
-/

namespace QueryMachine

/-- What a run gives when it is pulled. -/
abbrev Item := Option (Except Fault Value)

/-- How far a run has come. -/
inductive Progress where
  /-- There is more to do before the next item. -/
  | running (m : Machine)
  /-- The next item, and the machine to pull for the one after it. -/
  | done (m : Machine) (item : Item)

namespace Machine

/-! ## One instruction -/

/-- Carry out an instruction. -/
def execute (m : Machine) (p : Program) : Instruction → Effect
  | .nop => .next m
  | .push v => .next (m.pushValue v)
  | .pop => m.dropTop
  | .dup => m.duplicate
  | .swap => m.exchange
  | .const v => m.replaceTop v
  | .load a => m.loadVariable a
  | .store a => m.storeVariable a
  | .append a => m.appendVariable a
  | .object pairs => m.buildObject pairs
  | .fork target => m.fork target
  | .forkOpt target => m.forkOpt target
  | .forkLabel label => m.forkLabel label
  | .backtrack => .stop m
  | .each => m.iterate
  | .jump target => .jump m target
  | .jumpIfNot target => m.jumpUnless target
  | .call target => m.callAt target
  | .callNative id argc => m.callNative p.natives id argc
  | .pushPc target => m.pushClosure target
  | .callPc => m.callClosure
  | .scope id slots => m.enterScope id slots p.length
  | .ret => m.leaveScope
  | .pathBegin => m.openPath
  | .pathEnd => m.closePath

/-- Whether the interrupt is looked at before an instruction: when enough of them have passed,
and before every native call. -/
def pollsAt (m : Machine) (i : Instruction) : Bool :=
  m.settings.pollInterval.toNat ≤ m.ticks || i.callsNative

/-- The reason to stop, if there is one. -/
def tripped? (m : Machine) : Option CancelReason :=
  m.interrupt.bind (·.check m.signals)

/-- Count an instruction, look at the interrupt if it is time to, and carry it out. -/
def step (m : Machine) (p : Program) (i : Instruction) : Effect :=
  let counted := { m with ticks := m.ticks + 1 }
  if counted.pollsAt i then
    -- the count starts again even if the run goes on
    let polled := { counted with ticks := 0 }
    match polled.tripped? with
    | some reason => .fail polled (.canceled reason)
    | none => polled.execute p i
  else counted.execute p i

/-! ## Dispatch -/

/-- Take up the most recent branch. Without one the run is over, with the fault that found no
handler or with nothing. -/
def unwind (m : Machine) : Progress :=
  match m.branches with
  | branch :: older => .running ({ m with branches := older }.rewind branch)
  | [] => .done { m with fault := none, finished := true } (m.fault.map .error)

/-- Where the run goes after an instruction. -/
def follow : Effect → Progress
  | .next m => .running { m with pc := m.pc + 1 }
  | .jump m target => .running { m with pc := target }
  | .stop m => m.unwind
  | .yield m v => .done { m with resuming := true } (some (.ok v))
  | .fail m fault => (m.raise fault).unwind

/-- One step of the run. A position past the end of the program ends the continuation. -/
def dispatch (p : Program) (m : Machine) : Progress :=
  if m.finished then .done m none
  else
    match p.at? m.pc with
    | none => m.unwind
    | some i => follow (m.step p i)

/-- Run until the next item, for at most so many dispatches. -/
def pull (p : Program) (m : Machine) : Nat → Progress
  | 0 => .running m
  | fuel + 1 =>
    match dispatch p m with
    | .running m => pull p m fuel
    | .done m item => .done m item

end Machine

end QueryMachine
