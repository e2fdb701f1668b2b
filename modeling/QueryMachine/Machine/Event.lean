import QueryMachine.Machine.Run
import QueryMachine.Program.Listing

/-!
# Events

What a run reports while it goes on, for a host that listens. Events are observations: they
are read off what was known before an instruction and the effect that it had, and nothing in
the run depends on them.

`Machine.observe` is `Machine.dispatch` with the events of one dispatch, in order, and
`Machine.watch` is `Machine.pull` with a record of all events on the way. That the run is the
same with and without an observer is what `observe_snd` and `watch_snd` say.
-/

namespace QueryMachine

/-- Something that happened in a run. -/
inductive Event where
  /-- A run of a program starts. -/
  | started (program : String)
  /-- An instruction is about to be carried out. -/
  | stepping (pc : Nat) (instruction : String) (resuming : Bool) (pending : Nat)
  /-- An instruction failed. -/
  | raised (pc : Nat) (fault : Fault)
  /-- A fatal fault discards the pending branches. -/
  | dropped (pc : Nat) (fault : Fault) (pending : Nat)
  /-- The run ends with a fault. -/
  | ended (pc : Nat) (fault : Fault)
  /-- A branch is left behind; so many are pending now. -/
  | branched (pc : Nat) (kind : BranchKind) (pending : Nat)
  /-- A branch is taken up; so many are pending now. -/
  | resumed (pc : Nat) (kind : BranchKind) (pending : Nat)
  /-- A branch recovers from a fault. -/
  | recovered (pc : Nat) (fault : Fault)
  /-- A label absorbs a jump out of it. -/
  | absorbed (pc : Nat) (label : String)
  /-- A scope is entered. -/
  | entered (pc : Nat) (activation : Activation)
  /-- A result is complete. -/
  | completed (pc : Nat)
  /-- The top of the stack is duplicated. -/
  | duplicated (pc : Nat)
  /-- The two topmost operands are exchanged. -/
  | exchanged (pc : Nat)
  /-- A native function is called. -/
  | called (pc : Nat) (name : String) (argc : Nat)
  /-- A path was closed on a value that it does not lead to. -/
  | mismatched (pc : Nat) (value : Value)
  /-- A native call navigated from a value that the path does not lead to. -/
  | strayed (pc : Nat) (value : Value)

/-! ## Wording -/

/-- A detail of an event. -/
inductive Detail where
  | text (s : String)
  | number (n : Nat)
  | flag (b : Bool)
  deriving DecidableEq, Repr

/-- How much a host has to want to know to be told. -/
inductive EventLevel where
  | debug
  | trace
  deriving DecidableEq, Repr

namespace Event

/-- The level of an event. -/
def level : Event → EventLevel
  | .started _ | .dropped .. | .ended .. | .mismatched .. | .strayed .. => .debug
  | _ => .trace

/-- The part of the machine that an event belongs to. -/
def topic : Event → String
  | .started _ | .dropped .. | .ended .. => "vm"
  | .stepping .. | .raised .. => "vm::step"
  | .branched .. | .resumed .. | .recovered .. | .absorbed .. => "vm::nondet"
  | .entered .. | .completed _ => "vm::scope"
  | .duplicated _ | .exchanged _ => "vm::stack"
  | .called .. => "vm::native"
  | .mismatched .. | .strayed .. => "vm::path"

/-- The wording of an event; a step has none. -/
def message? : Event → Option String
  | .started _ => some "execute"
  | .stepping .. => none
  | .raised .. => some "raise"
  | .dropped .. => some "fatal error"
  | .ended .. => some "run failed"
  | .branched .. => some "push fork"
  | .resumed .. => some "pop fork"
  | .recovered .. => some "caught"
  | .absorbed .. => some "break absorbed"
  | .entered .. => some "enter scope"
  | .completed _ => some "result"
  | .duplicated _ => some "dup"
  | .exchanged _ => some "swap"
  | .called .. => some "call native"
  | .mismatched .. => some "path end mismatch"
  | .strayed .. => some "navigation off path"

/-- The details of an event by name. -/
def details : Event → List (String × Detail)
  | .started program => [("program", .text program)]
  | .stepping pc instruction resuming pending =>
    [("pc", .number pc), ("instruction", .text instruction), ("backtrack", .flag resuming),
      ("forks", .number pending)]
  | .raised pc fault | .ended pc fault | .recovered pc fault =>
    [("pc", .number pc), ("error", .text fault.message)]
  | .dropped pc fault pending =>
    [("pc", .number pc), ("error", .text fault.message), ("dropped_forks", .number pending)]
  | .branched pc kind pending | .resumed pc kind pending =>
    [("pc", .number pc), ("op", .text kind.mnemonic), ("forks", .number pending)]
  | .absorbed pc label => [("pc", .number pc), ("label", .text label)]
  | .entered pc activation =>
    [("pc", .number pc), ("scope", .number activation.scope.toNat),
      ("offset", .number activation.base), ("return_pc", .number activation.returnPc)]
  | .completed pc | .duplicated pc | .exchanged pc => [("pc", .number pc)]
  | .called pc name argc =>
    [("pc", .number pc), ("name", .text name), ("argc", .number argc)]
  | .mismatched pc v | .strayed pc v => [("pc", .number pc), ("value", .text v.preview)]

end Event

namespace Machine

/-! ## Observing a dispatch -/

/-- What taking up the next branch reports. -/
def unwindEvents (m : Machine) : List Event :=
  match m.branches, m.fault with
  | branch :: older, _ => [.resumed branch.pc branch.kind older.length]
  | [], some fault => [.ended m.pc fault]
  | [], none => []

/-- What the run reports on its way on from an instruction. -/
def followEvents : Effect → List Event
  | .stop m => m.unwindEvents
  | .fail m fault =>
    let lost := if fault.isFatal then [.dropped m.pc fault m.branches.length] else []
    .raised m.pc fault :: lost ++ (m.raise fault).unwindEvents
  | _ => []

end Machine

/-- What an observer keeps of a machine while its next instruction is carried out. It is small,
so that watching a run does not make the run copy its stacks. -/
structure Viewpoint where
  pc : Nat
  resuming : Bool
  fault : Option Fault
  branches : List BranchPoint

namespace Viewpoint

/-- What a native call reports: the call, unless its operands were not there, and a navigation
from the wrong value. -/
def callEvents (v : Viewpoint) (name : String) (argc : Nat) : Effect → List Event
  | .fail _ .stackUnderflow | .fail _ (.invalidOperand ..) => []
  | .fail _ (.invalidPath value) => [.called v.pc name argc, .strayed v.pc value]
  | _ => [.called v.pc name argc]

/-- What a label reports: whether it absorbs the fault. -/
def labelEvents (v : Viewpoint) (label : String) : List Event :=
  match v.fault with
  | some (.exit raised) => if raised == label then [.absorbed v.pc label] else []
  | _ => []

/-- What leaving a branch behind reports. -/
def branchEvents (v : Viewpoint) (after : Machine) : List Event :=
  after.branches.head?.elim [] fun b => [.branched v.pc b.kind after.branches.length]

/-- What an instruction reports, given its effect. A canceled run does not get to it. -/
def instructionEvents (v : Viewpoint) (p : Program) : Instruction → Effect → List Event
  | _, .fail _ (.canceled _) => []
  | .dup, _ => [.duplicated v.pc]
  | .swap, _ => [.exchanged v.pc]
  | .callNative id argc, effect => v.callEvents ((p.natives.nameOf? id).getD "?") argc effect
  | .pathEnd, .fail _ (.invalidPath value) => [.mismatched v.pc value]
  | .forkOpt _, .jump .. => v.fault.elim [] fun fault => [.recovered v.pc fault]
  | .forkLabel label, .stop _ => v.labelEvents label
  | .scope .., .next after => after.scopes.top?.elim [] fun a => [.entered v.pc a]
  | .ret, .yield .. => [.completed v.pc]
  | .fork _, .next after | .forkOpt _, .next after | .forkLabel _, .next after =>
    v.branchEvents after
  | .each, .next after =>
    -- the last entry of a container leaves no branch behind
    if v.branches.length < after.branches.length then v.branchEvents after else []
  | _, _ => []

/-- What is reported before an instruction, if the host wants to be told of every one. -/
def steppingEvents (v : Viewpoint) (p : Program) (settings : Settings) : List Event :=
  if settings.trace then
    [.stepping v.pc (p.instructionText v.pc) v.resuming v.branches.length]
  else []

end Viewpoint

namespace Machine

/-- The observer's part of a machine. -/
def viewpoint (m : Machine) : Viewpoint :=
  ⟨m.pc, m.resuming, m.fault, m.branches⟩

/-- One dispatch, and what it reports. -/
def observe (p : Program) (m : Machine) : List Event × Progress :=
  if m.finished then ([], .done m none)
  else
    match p.at? m.pc with
    | none => (m.unwindEvents, m.unwind)
    | some i =>
      let v := m.viewpoint
      let stepping := v.steppingEvents p m.settings
      let effect := m.step p i
      (stepping ++ v.instructionEvents p i effect ++ followEvents effect, follow effect)

/-- Run until the next item, for at most so many dispatches, and add all events to those
seen before. -/
def watch (p : Program) (m : Machine) (seen : Array Event) : Nat → Array Event × Progress
  | 0 => (seen, .running m)
  | fuel + 1 =>
    match observe p m with
    | (events, .running m) => watch p m (seen ++ events) fuel
    | (events, .done m item) => (seen ++ events, .done m item)

/-- An observed dispatch goes where the dispatch goes. -/
theorem observe_snd (p : Program) (m : Machine) : (observe p m).2 = dispatch p m := by
  unfold observe dispatch
  split
  · rfl
  · cases p.at? m.pc <;> rfl

/-- A watched run goes where the run goes. -/
theorem watch_snd (p : Program) (m : Machine) (seen : Array Event) (fuel : Nat) :
    (watch p m seen fuel).2 = pull p m fuel := by
  induction fuel generalizing m seen with
  | zero => rfl
  | succ fuel ih =>
    rw [watch, pull, ← observe_snd]
    rcases observe p m with ⟨events, progress⟩
    cases progress with
    | running m => exact ih m _
    | done m item => rfl

end Machine

end QueryMachine
