import QueryMachine.Machine.Run

/-!
# Sessions

A session hosts any number of runs that are pulled in turn. Machines that are not needed any
more wait in a `Pool` and are used again; a run gives its machine back when it has given its
last item, or when it is dropped. All runs see the same signals.
-/

namespace QueryMachine

/-! ## The pool -/

/-- Idle machines. -/
structure Pool where
  idle : List Machine := []

namespace Pool

/-- A machine that is ready for a run: a used one if there is one, else a new one. -/
def acquire (pool : Pool) (settings : Settings) (input : Value)
    (interrupt : Option Interrupt) : Machine × Pool :=
  match pool.idle with
  | m :: rest => (m.load settings input interrupt, ⟨rest⟩)
  | [] => (Machine.load {} settings input interrupt, pool)

/-- Take a machine back, unless so many are idle already. -/
def release (pool : Pool) (m : Machine) (capacity : Nat) : Pool :=
  if pool.idle.length < capacity then ⟨m.reset :: pool.idle⟩ else pool

end Pool

/-! ## Runs -/

/-- A run of a program. It has a machine until its last item has been given. -/
structure Run where
  program : Program
  settings : Settings
  machine : Option Machine

/-- What a session gives for a pull. -/
inductive Turn where
  /-- The item takes more dispatches than were allowed; pull again. -/
  | paused
  | gave (item : Item)

/-- Runs, the machines they do not use, and the signals they share. -/
structure Session where
  pool : Pool := {}
  runs : Array Run := #[]
  signals : Signals := {}

namespace Session

/-- Start a run; it is known by its number. -/
def start (s : Session) (program : Program) (settings : Settings) (input : Value)
    (interrupt : Option Interrupt) : Session × Nat :=
  let (m, pool) := s.pool.acquire settings input interrupt
  ({ s with pool, runs := s.runs.push ⟨program, settings, some m⟩ }, s.runs.size)

/-- Replace the machine of a run. -/
def setMachine (s : Session) (number : Nat) (machine : Option Machine) : Session :=
  { s with runs := s.runs.modify number fun run => { run with machine } }

/-- Whether an item is the last one of its run. -/
def isLast : Item → Bool
  | some (.ok _) => false
  | _ => true

/-- Pull a run for at most so many dispatches. A run without a machine has nothing left. -/
def pull (s : Session) (number fuel : Nat) : Session × Turn :=
  match s.runs[number]? with
  | some ⟨program, settings, some m⟩ =>
    -- while it is pulled, the machine belongs to the pull alone
    let s := s.setMachine number none
    match Machine.pull program { m with signals := s.signals } fuel with
    | .running m => ({ s.setMachine number (some m) with signals := m.signals }, .paused)
    | .done m item =>
      -- natives may have raised flags that other runs obey
      let s := { s with signals := m.signals }
      if isLast item then
        ({ s with pool := s.pool.release m settings.poolCapacity }, .gave item)
      else (s.setMachine number (some m), .gave item)
  | _ => (s, .gave none)

/-- End a run early. -/
def drop (s : Session) (number : Nat) : Session :=
  match s.runs[number]? with
  | some ⟨_, settings, some m⟩ =>
    { s.setMachine number none with pool := s.pool.release m settings.poolCapacity }
  | _ => s

/-- Raise a flag. -/
def cancel (s : Session) (flag : Nat) : Session :=
  { s with signals := s.signals.raise flag }

end Session

/-! ## Collecting -/

/-- The items of a run taken together: all results, or the fault that ended it. -/
inductive Collection where
  /-- More may come; the results so far, the latest first. -/
  | pending (latest : List Value)
  | complete (outcome : Except Fault (List Value))

namespace Collection

/-- Take account of the next item. -/
def add : Collection → Item → Collection
  | .pending latest, some (.ok v) => .pending (v :: latest)
  | .pending _, some (.error fault) => .complete (.error fault)
  | .pending latest, none => .complete (.ok latest.reverse)
  | done, _ => done

end Collection

end QueryMachine
