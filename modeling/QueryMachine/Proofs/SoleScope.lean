import QueryMachine.Proofs.ControlFlow
import QueryMachine.Proofs.Handlers
import QueryMachine.Proofs.Yields

/-!
# Programs with one scope

A program that calls nothing enters one activation at its start and stays inside. Then a run is
determined by little: the variables, the `Spot` where it goes on, and the spots that wait to be
taken up. With these

* `Goes` says which items come of going forward from a spot;
* `Unwinds` says which items come of the spots that wait, once a continuation has ended, with or
  without a fault.

There are rules for the instructions that such programs are made of, each of which leads from what
an instruction leaves to do to what there was to do before it. An iteration has a judgement of its
own, `Visits`: which items come of the entries that are left to visit. `givesAll_of_goes` takes the
result to a run from its start.
-/

namespace QueryMachine

/-! ## Code -/

/-- The code from a position on. -/
def Program.Has (p : Program) : Nat → List Instruction → Prop
  | _, [] => True
  | pc, i :: rest => p.at? pc = some i ∧ p.Has (pc + 1) rest

theorem Program.has_append {p : Program} {pc : Nat} {first second : List Instruction} :
    p.Has pc (first ++ second) ↔ p.Has pc first ∧ p.Has (pc + first.length) second := by
  induction first generalizing pc with
  | nil => exact ⟨fun h => ⟨trivial, h⟩, And.right⟩
  | cons i first ih =>
    rw [List.cons_append, Program.Has, Program.Has, ih, and_assoc, List.length_cons,
      Nat.add_assoc, Nat.add_comm 1]

theorem Program.has_code (p : Program) : p.Has 0 p.code.toList := by
  suffices h : ∀ code pc, (∀ i, code[i]? = p.at? (pc + i)) → p.Has pc code from
    h p.code.toList 0 fun i => by rw [Nat.zero_add, Program.at?, Array.getElem?_toList]
  intro code
  induction code with
  | nil => exact fun pc _ => trivial
  | cons i code ih =>
    intro pc h
    refine ⟨(h 0).symm, ih (pc + 1) fun j => ?_⟩
    rw [Nat.add_assoc, Nat.add_comm 1]
    exact h (j + 1)

/-! ## What a run depends on -/

/-- Where a continuation goes on: the position, and the operands and the path list there. -/
structure Spot where
  pc : Nat
  stack : List Operand
  paths : List PlainRecord

/-- Where taking up a branch leads. -/
def PlainBranch.spot (b : PlainBranch) : Spot :=
  ⟨b.pc, b.stack, b.paths⟩

namespace PlainMachine

variable {p : Program} {m : PlainMachine} {i : Instruction} {vars : List Operand} {spot : Spot}
  {waiting : List Spot} {resuming : Bool} {fault : Option Fault}
  {items : List (Except Fault Value)}

/-- A run without an interrupt whose only activation is one of scope 0, with these variables, and
whose branches lead back into it. -/
structure Carries (vars : List Operand) (waiting : List Spot) (m : PlainMachine) : Prop where
  interrupt : m.interrupt = none
  running : m.finished = false
  activation : ∃ returnPc, m.scopes.cells = #[⟨⟨0, 0, returnPc, none⟩, none⟩]
  inside : ∀ b ∈ m.branches, b.scopes.top = some 0
  vars : vars <+: m.registers.toList
  waiting : m.branches.map (·.spot) = waiting

/-- The run is inside the activation, at this spot. -/
structure IsAt (vars : List Operand) (resuming : Bool) (fault : Option Fault) (spot : Spot)
    (waiting : List Spot) (m : PlainMachine) : Prop extends Carries vars waiting m where
  top : m.scopes.top = some 0
  pc : m.pc = spot.pc
  stack : m.stack = spot.stack
  paths : m.paths = spot.paths
  resuming : m.resuming = resuming
  fault : m.fault = fault

/-- Without an interrupt an instruction is carried out, with a new count. -/
theorem step_eq_execute (h : m.interrupt = none) (p : Program) (i : Instruction) :
    ∃ ticks, m.step p i = execute { m with ticks } p i := by
  have hcalm : ∀ ticks, tripped? { m with ticks } = none := fun ticks => by
    rw [tripped?, h]
    rfl
  unfold step
  dsimp only
  split
  · rw [hcalm]
    exact ⟨0, rfl⟩
  · exact ⟨m.ticks + 1, rfl⟩

end PlainMachine

open PlainMachine

/-- The items that come of an instruction with this effect. -/
def PlainEffect.Yields (p : Program) (effect : PlainEffect) (items : List (Except Fault Value)) :
    Prop :=
  ∀ m : PlainMachine, dispatch p m = follow effect → m.Yields p items

namespace Program

variable {p : Program} {m : PlainMachine} {i : Instruction} {vars : List Operand} {spot : Spot}
  {older waiting : List Spot} {resuming : Bool} {fault : Option Fault}
  {items : List (Except Fault Value)}

/-- A run at this spot gives these items. -/
def Runs (p : Program) (vars : List Operand) (resuming : Bool) (fault : Option Fault) (spot : Spot)
    (waiting : List Spot) (items : List (Except Fault Value)) : Prop :=
  ∀ m, IsAt vars resuming fault spot waiting m → m.Yields p items

/-- Going forward from this spot gives these items. -/
abbrev Goes (p : Program) (vars : List Operand) (spot : Spot) (waiting : List Spot)
    (items : List (Except Fault Value)) : Prop :=
  p.Runs vars false none spot waiting items

/-- Taking up what waits, the most recent first, gives these items. Where nothing waits, only the
fault is left. -/
def Unwinds (p : Program) (vars : List Operand) (fault : Option Fault) :
    List Spot → List (Except Fault Value) → Prop
  | [], items => items = fault.toList.map .error
  | spot :: older, items => p.Runs vars true fault spot older items

/-! ## One instruction -/

theorem Runs.of_execute (hat : p.at? spot.pc = some i)
    (h : ∀ m, IsAt vars resuming fault spot waiting m → (m.execute p i).Yields p items) :
    p.Runs vars resuming fault spot waiting items := by
  intro m hm
  obtain ⟨ticks, hstep⟩ := step_eq_execute hm.interrupt p i
  refine h { m with ticks } { hm with } m ?_
  rw [dispatch_at hm.running (hm.pc ▸ hat), hstep]

theorem yields_next (h : ({ m with pc := m.pc + 1 } : PlainMachine).Yields p items) :
    (PlainEffect.next m).Yields p items :=
  fun _ hd => .goOn hd h

theorem yields_jump {target : Nat} (h : ({ m with pc := target } : PlainMachine).Yields p items) :
    (PlainEffect.jump m target).Yields p items :=
  fun _ hd => .goOn hd h

/-- When a continuation ends, what waits is taken up. -/
theorem yields_stop (hm : Carries vars waiting m) (h : p.Unwinds vars m.fault waiting items) :
    (PlainEffect.stop m).Yields p items := by
  intro m₀ hd
  rw [follow] at hd
  cases hb : m.branches with
  | nil =>
    have hwaiting := hm.waiting
    rw [hb] at hwaiting
    subst hwaiting
    rw [show items = _ from h]
    rw [unwind_nil hb] at hd
    exact .ended _ hd rfl
  | cons b older =>
    have hwaiting := hm.waiting
    rw [hb] at hwaiting
    subst hwaiting
    rw [unwind_cons hb] at hd
    refine .goOn hd (h _ ?_)
    exact {
      interrupt := hm.interrupt, running := hm.running, activation := hm.activation
      inside := fun b' hb' => hm.inside b' (hb ▸ List.mem_cons_of_mem b hb')
      vars := hm.vars, waiting := rfl, top := hm.inside b (hb ▸ List.mem_cons_self)
      pc := rfl, stack := rfl, paths := rfl, resuming := rfl, fault := rfl }

/-- A fatal fault discards what waits. -/
theorem yields_fail {raised : Fault} (hm : Carries vars waiting m)
    (h : p.Unwinds vars (some raised) (if raised.isFatal then [] else waiting) items) :
    (PlainEffect.fail m raised).Yields p items := by
  suffices hraise : Carries vars (if raised.isFatal then [] else waiting) (m.raise raised) from
    yields_stop hraise h
  cases hfatal : raised.isFatal with
  | true => exact { hm with
      inside := fun b hb => by simp [PlainMachine.raise, hfatal] at hb
      waiting := by simp [PlainMachine.raise, hfatal] }
  | false => exact { hm with
      inside := fun b hb => hm.inside b (by simpa [PlainMachine.raise, hfatal] using hb)
      waiting := by simpa [PlainMachine.raise, hfatal] using hm.waiting }

section

variable {pc target : Nat} {x y : Operand} {v : Value} {stack stack' : List Operand}
  {paths paths' : List PlainRecord} {vars' : List Operand} {waiting' : List Spot}

/-- An instruction that leads on is followed by the next one. -/
theorem Runs.of_next (hat : p.at? pc = some i)
    (h : p.Goes vars' ⟨pc + 1, stack', paths'⟩ waiting' items)
    (hnext : ∀ m, IsAt vars resuming fault ⟨pc, stack, paths⟩ waiting m →
      ∃ m', m.execute p i = .next m' ∧ IsAt vars' false none ⟨pc, stack', paths'⟩ waiting' m') :
    p.Runs vars resuming fault ⟨pc, stack, paths⟩ waiting items := by
  refine .of_execute hat fun m hm => ?_
  obtain ⟨m', hexecute, hm'⟩ := hnext m hm
  rw [hexecute]
  exact yields_next (h _ { hm' with pc := congrArg (· + 1) hm'.pc })

/-- An instruction that fails leaves its fault to what waits. -/
theorem Runs.of_fail {raised : Fault} (hat : p.at? spot.pc = some i)
    (h : p.Unwinds vars (some raised) (if raised.isFatal then [] else waiting) items)
    (hfail : ∀ m, IsAt vars resuming fault spot waiting m →
      ∃ m', m.execute p i = .fail m' raised ∧ Carries vars waiting m') :
    p.Runs vars resuming fault spot waiting items := by
  refine .of_execute hat fun m hm => ?_
  obtain ⟨m', hexecute, hm'⟩ := hfail m hm
  rw [hexecute]
  exact yields_fail hm' h

/-- An instruction that ends the continuation leaves its fault, if there is one, to what waits. -/
theorem Runs.of_stop {fault' : Option Fault} (hat : p.at? spot.pc = some i)
    (h : p.Unwinds vars fault' waiting items)
    (hstop : ∀ m, IsAt vars resuming fault spot waiting m →
      ∃ m', m.execute p i = .stop m' ∧ m'.fault = fault' ∧ Carries vars waiting m') :
    p.Runs vars resuming fault spot waiting items := by
  refine .of_execute hat fun m hm => ?_
  obtain ⟨m', hexecute, hfault, hm'⟩ := hstop m hm
  rw [hexecute]
  exact yields_stop hm' (by rwa [hfault])

/-! ## Operands -/

theorem goes_push (hat : p.at? pc = some (.push v))
    (h : p.Goes vars ⟨pc + 1, .value v :: stack, paths⟩ waiting items) :
    p.Goes vars ⟨pc, stack, paths⟩ waiting items :=
  .of_next hat h fun m hm => ⟨m.pushValue v, rfl, { hm with
    stack := congrArg (Operand.value v :: ·) hm.stack }⟩

theorem goes_pop (hat : p.at? pc = some .pop)
    (h : p.Goes vars ⟨pc + 1, stack, paths⟩ waiting items) :
    p.Goes vars ⟨pc, x :: stack, paths⟩ waiting items := by
  refine .of_next hat h fun m hm => ⟨{ m with stack }, ?_, { hm with stack := rfl }⟩
  rw [execute, PlainMachine.dropTop, PlainMachine.popOperand, hm.stack]

theorem goes_dup (hat : p.at? pc = some .dup)
    (h : p.Goes vars ⟨pc + 1, x :: x :: stack, paths⟩ waiting items) :
    p.Goes vars ⟨pc, x :: stack, paths⟩ waiting items := by
  refine .of_next hat h fun m hm => ⟨m.pushOperand x, ?_, { hm with
    stack := congrArg (x :: ·) hm.stack }⟩
  rw [execute, PlainMachine.duplicate, hm.stack, List.head?_cons]

theorem goes_swap (hat : p.at? pc = some .swap)
    (h : p.Goes vars ⟨pc + 1, y :: x :: stack, paths⟩ waiting items) :
    p.Goes vars ⟨pc, x :: y :: stack, paths⟩ waiting items := by
  refine .of_next hat h fun m hm => ⟨{ m with stack := y :: x :: stack }, ?_, { hm with
    stack := rfl }⟩
  simp only [execute, PlainMachine.exchange, PlainMachine.popOperand, hm.stack]
  rfl

/-! ## Variables -/

/-- A variable of the activation lies in the register of its slot. -/
theorem register_eq {slot : Nat} (hm : IsAt vars resuming fault spot waiting m)
    (hslot : vars[slot]? = some x) :
    m.register ⟨0, slot⟩ = .ok slot ∧ m.registers[slot]? = some x := by
  obtain ⟨returnPc, hcells⟩ := hm.activation
  have hfind : m.scopes.find? (·.scope == 0) = some ⟨0, 0, returnPc, none⟩ := by
    rw [RewindStack.find?, hm.top, Option.elim_some, RewindStack.findFrom, hcells]
    rfl
  have hread : m.registers[slot]? = some x := by
    obtain ⟨others, hothers⟩ := hm.vars
    rw [← Array.getElem?_toList, ← hothers,
      List.getElem?_append_left (List.getElem?_eq_some_iff.mp hslot).1, hslot]
  have hlt := (Array.getElem?_eq_some_iff.mp hread).1
  refine ⟨?_, hread⟩
  rw [PlainMachine.register, hfind]
  dsimp only
  rw [Nat.zero_add, if_pos hlt]

theorem goes_load {slot : Nat} (hat : p.at? pc = some (.load ⟨0, slot⟩))
    (hslot : vars[slot]? = some x)
    (h : p.Goes vars ⟨pc + 1, x :: stack, paths⟩ waiting items) :
    p.Goes vars ⟨pc, stack, paths⟩ waiting items := by
  refine .of_next hat h fun m hm => ⟨m.pushOperand x, ?_, { hm with
    stack := congrArg (x :: ·) hm.stack }⟩
  obtain ⟨hregister, hread⟩ := register_eq hm hslot
  rw [execute, PlainMachine.loadVariable, hregister]
  dsimp only
  rw [Array.getD_eq_getD_getElem?, hread, Option.getD_some]

/-- Setting a variable sets the register of its slot. -/
theorem set_isPrefix {registers : List Operand} {slot : Nat} (h : vars <+: registers)
    (hslot : slot < vars.length) (x : Operand) : vars.set slot x <+: registers.set slot x := by
  obtain ⟨others, rfl⟩ := h
  rw [List.set_append_left slot x hslot]
  exact List.prefix_append _ _

theorem goes_store {slot : Nat} (hat : p.at? pc = some (.store ⟨0, slot⟩))
    (hslot : slot < vars.length)
    (h : p.Goes (vars.set slot x) ⟨pc + 1, stack, paths⟩ waiting items) :
    p.Goes vars ⟨pc, x :: stack, paths⟩ waiting items := by
  refine .of_next hat h fun m hm => ?_
  obtain ⟨hregister, -⟩ := register_eq hm (List.getElem?_eq_getElem hslot)
  have hexecute : m.execute p (.store ⟨0, slot⟩) =
      .next { m with stack, registers := m.registers.setIfInBounds slot x } := by
    rw [execute, PlainMachine.storeVariable, hregister]
    dsimp only
    rw [PlainMachine.popOperand, hm.stack]
  refine ⟨_, hexecute, { hm with stack := rfl, vars := ?_ }⟩
  rw [Array.toList_setIfInBounds]
  exact set_isPrefix hm.vars hslot x

theorem goes_append {slot : Nat} {gathered : Array Value}
    (hat : p.at? pc = some (.append ⟨0, slot⟩))
    (hslot : vars[slot]? = some (.value (.array gathered)))
    (h : p.Goes (vars.set slot (.value (.array (gathered.push v)))) ⟨pc + 1, stack, paths⟩ waiting
      items) :
    p.Goes vars ⟨pc, .value v :: stack, paths⟩ waiting items := by
  refine .of_next hat h fun m hm => ?_
  obtain ⟨hregister, hread⟩ := register_eq hm hslot
  have hmodify : m.registers.modify slot (.gather v) =
      m.registers.setIfInBounds slot (.value (.array (gathered.push v))) := by
    apply Array.ext_getElem?
    intro j
    rw [Array.getElem?_modify, Array.getElem?_setIfInBounds]
    split
    · rename_i hj
      subst hj
      rw [hread, if_pos (Array.getElem?_eq_some_iff.mp hread).1]
      rfl
    · rfl
  have hexecute : m.execute p (.append ⟨0, slot⟩) = .next { m with
      stack, registers := m.registers.setIfInBounds slot (.value (.array (gathered.push v))) } := by
    rw [execute, PlainMachine.appendVariable, hregister]
    dsimp only
    rw [PlainMachine.popValue, PlainMachine.popOperand, hm.stack]
    dsimp only [Operand.toValue]
    rw [Array.getD_eq_getD_getElem?, hread, Option.getD_some]
    dsimp only
    rw [hmodify]
  refine ⟨_, hexecute, { hm with stack := rfl, vars := ?_ }⟩
  rw [Array.toList_setIfInBounds]
  exact set_isPrefix hm.vars (List.getElem?_eq_some_iff.mp hslot).1 _

/-! ## Branches -/

theorem goes_backtrack (hat : p.at? pc = some .backtrack) (h : p.Unwinds vars none waiting items) :
    p.Goes vars ⟨pc, stack, paths⟩ waiting items :=
  .of_stop hat h fun m hm => ⟨m, rfl, hm.fault, hm.toCarries⟩

/-- The spot of a branch that is left behind waits from now on. -/
theorem isAt_pushBranch (hm : IsAt vars resuming fault ⟨pc, stack, paths⟩ waiting m)
    (kind : BranchKind) :
    IsAt vars resuming fault ⟨pc, stack, paths⟩ (⟨pc, stack, paths⟩ :: waiting)
      (m.pushBranch kind) := by
  refine { hm with inside := List.forall_mem_cons.mpr ⟨hm.top, hm.inside⟩, waiting := ?_ }
  show (⟨m.pc, m.stack, m.paths⟩ : Spot) :: m.branches.map (·.spot) = _
  rw [hm.waiting, hm.pc, hm.stack, hm.paths]

/-- An instruction that leaves a branch behind goes on; an iteration does more. -/
theorem goes_branch {kind : BranchKind} (hat : p.at? pc = some i)
    (hkind : i.branchKind? = some kind) (hne : kind ≠ .each)
    (h : p.Goes vars ⟨pc + 1, stack, paths⟩ (⟨pc, stack, paths⟩ :: waiting) items) :
    p.Goes vars ⟨pc, stack, paths⟩ waiting items := by
  refine .of_next hat h fun m hm => ⟨m.pushBranch kind, ?_, isAt_pushBranch hm kind⟩
  cases i with
  | fork | forkOpt | forkLabel =>
    obtain rfl := Option.some.inj hkind
    simp [execute, PlainMachine.fork, PlainMachine.forkOpt, PlainMachine.forkLabel, hm.resuming]
  | each =>
    obtain rfl := Option.some.inj hkind
    exact absurd rfl hne
  | _ => cases hkind

theorem goes_fork (hat : p.at? pc = some (.fork target))
    (h : p.Goes vars ⟨pc + 1, stack, paths⟩ (⟨pc, stack, paths⟩ :: waiting) items) :
    p.Goes vars ⟨pc, stack, paths⟩ waiting items :=
  goes_branch hat rfl nofun h

theorem unwinds_fork (hat : p.at? pc = some (.fork target))
    (h : p.Goes vars ⟨target, stack, paths⟩ older items) :
    p.Unwinds vars none (⟨pc, stack, paths⟩ :: older) items := by
  refine .of_execute hat fun m hm => ?_
  have hexecute : m.execute p (.fork target) = .jump { m with resuming := false } target := by
    rw [execute, PlainMachine.fork, hm.resuming, hm.fault]
    rfl
  rw [hexecute]
  exact yields_jump (h _ { hm with pc := rfl, resuming := rfl })

/-! ### Handlers -/

/-- A branch that does not handle a fault is passed by it. -/
theorem unwinds_unhandled {raised : Fault} (hat : p.at? spot.pc = some i)
    (hkind : i.branchKind?.isSome) (hnot : i.handles raised = false)
    (h : p.Unwinds vars (some raised) older items) :
    p.Unwinds vars (some raised) (spot :: older) items := by
  refine .of_stop hat h fun m hm => ⟨m, ?_, hm.fault, hm.toCarries⟩
  -- only four instructions leave a branch behind
  cases i with
  | fork target => simp [execute, PlainMachine.fork, hm.resuming, hm.fault]
  | forkOpt target =>
    have huncatchable : raised.isCatchable = false := hnot
    simp [execute, PlainMachine.forkOpt, hm.resuming, hm.fault, huncatchable]
  | forkLabel label =>
    have hstays : m.isLeaving label = false := by
      rw [PlainMachine.isLeaving, hm.fault]
      cases raised with
      | exit name => exact hnot
      | _ => rfl
    simp [execute, PlainMachine.forkLabel, hm.resuming, hstays]
  | each => simp [execute, PlainMachine.iterate, hm.fault]
  | _ => cases hkind

/-- A recovering branch goes on at its target with what it receives for the fault. -/
theorem unwinds_forkOpt_caught {raised : Fault} (hat : p.at? pc = some (.forkOpt target))
    (hcatch : raised.isCatchable = true)
    (h : p.Goes vars ⟨target, .value raised.caught :: stack, paths⟩ older items) :
    p.Unwinds vars (some raised) (⟨pc, stack, paths⟩ :: older) items := by
  refine .of_execute hat fun m hm => ?_
  have hexecute : m.execute p (.forkOpt target) =
      .jump ({ m with fault := none, resuming := false }.pushValue raised.caught) target := by
    simp [execute, PlainMachine.forkOpt, hm.resuming, hm.fault, hcatch]
  rw [hexecute]
  exact yields_jump (h _ { hm with
    pc := rfl, resuming := rfl, fault := rfl
    stack := congrArg (Operand.value raised.caught :: ·) hm.stack })

/-- A jump out of a label ends at the branch of that label. -/
theorem unwinds_forkLabel_left {label : String} (hat : p.at? pc = some (.forkLabel label))
    (h : p.Unwinds vars none older items) :
    p.Unwinds vars (some (.exit label)) (⟨pc, stack, paths⟩ :: older) items := by
  refine .of_stop hat h fun m hm => ⟨{ m with fault := none }, ?_, rfl, { hm.toCarries with }⟩
  simp [execute, PlainMachine.forkLabel, PlainMachine.isLeaving, hm.resuming, hm.fault]

/-- A recovering branch that nothing has come to is exhausted. -/
theorem unwinds_forkOpt (hat : p.at? pc = some (.forkOpt target))
    (h : p.Unwinds vars none older items) :
    p.Unwinds vars none (⟨pc, stack, paths⟩ :: older) items := by
  refine .of_stop hat h fun m hm => ⟨m, ?_, hm.fault, hm.toCarries⟩
  simp [execute, PlainMachine.forkOpt, hm.resuming, hm.fault]

/-- So is the branch of a label that nothing has jumped out of. -/
theorem unwinds_forkLabel {label : String} (hat : p.at? pc = some (.forkLabel label))
    (h : p.Unwinds vars none older items) :
    p.Unwinds vars none (⟨pc, stack, paths⟩ :: older) items := by
  refine .of_stop hat h fun m hm => ⟨m, ?_, hm.fault, hm.toCarries⟩
  simp [execute, PlainMachine.forkLabel, PlainMachine.isLeaving, hm.resuming, hm.fault]

/-! ## Results -/

/-- A return completes a result. At the next pull, what waits is taken up. -/
theorem goes_ret (hat : p.at? pc = some .ret) (h : p.Unwinds vars none waiting items) :
    p.Goes vars ⟨pc, .value v :: stack, paths⟩ waiting (.ok v :: items) := by
  refine .of_execute hat fun m hm => ?_
  obtain ⟨returnPc, hcells⟩ := hm.activation
  have hpop : m.scopes.pop? = some (⟨0, 0, returnPc, none⟩, m.scopes.setTop none) := by
    simp [RewindStack.pop?, RewindStack.cell?, RewindStack.setTop, hm.top, hcells]
  have hvalue : m.popValue = .ok (v, { m with stack }) := by
    rw [PlainMachine.popValue, PlainMachine.popOperand, hm.stack]
    rfl
  have hexecute : m.execute p .ret = .yield { m with stack, scopes := m.scopes.setTop none } v := by
    rw [execute, PlainMachine.leaveScope, hpop, hvalue, hm.resuming, hm.fault]
    rfl
  rw [hexecute]
  intro m₀ hd
  refine .result hd fun signals => ?_
  -- the run waits at the return
  have hcarries : ∀ ticks, Carries vars waiting
      { m with stack, scopes := m.scopes.setTop none, resuming := true, signals, ticks } :=
    fun ticks => { hm.toCarries with }
  have hafter := hcarries m.ticks
  obtain ⟨ticks, hstep⟩ := step_eq_execute hafter.interrupt p .ret
  refine yields_stop (hcarries ticks) (by rwa [hm.fault]) _ ?_
  have hstays : p.at? m.pc = some .ret := by rw [hm.pc]; exact hat
  rw [dispatch_at hafter.running hstays, hstep]
  rfl

/-! ## Iteration -/

/-- What waits inside an iteration: the entries that are left, if there are any, above what waited
before it. -/
def suspended (pc : Nat) (below : List Operand) (paths : List PlainRecord) (waiting : List Spot)
    (rest : List (Value × Value)) : List Spot :=
  if rest.isEmpty then waiting else ⟨pc, .entries rest :: below, paths⟩ :: waiting

/-- The path list inside an entry: one more step if a path is recorded. -/
def entered (paths : List PlainRecord) (key v : Value) : List PlainRecord :=
  if paths.isEmpty then [] else .step key v :: paths

/-- Visiting these entries, one after the other, gives these items. -/
def Visits (p : Program) (vars : List Operand) (pc : Nat) (below : List Operand)
    (paths : List PlainRecord) (waiting : List Spot) :
    List (Value × Value) → List (Except Fault Value) → Prop
  | [], items => p.Unwinds vars none waiting items
  | (key, v) :: rest, items =>
    p.Goes vars ⟨pc + 1, .value v :: below, entered paths key v⟩
      (suspended pc below paths waiting rest) items

/-- The value is what the path has reached, if one is recorded. -/
def Reached (paths : List PlainRecord) (v : Value) : Prop :=
  ∀ r, paths.head? = some r → r.value.equal v = true

theorem reached_nil (v : Value) : Reached [] v :=
  nofun

theorem entriesOf_value (hpaths : m.paths = paths) (hreached : Reached paths v) :
    m.entriesOf (.value v) =
      match v.keyed? with
      | some entries => .ok entries
      | none => .error (.notIterable v) := by
  rw [PlainMachine.entriesOf, PlainMachine.tracksPath, PlainMachine.isReached, hpaths]
  cases paths with
  | nil => rfl
  | cons r rest =>
    simp only [List.head?_cons, Option.map_some, Option.any_some, hreached r rfl]
    rfl

theorem execute_each (hfault : m.fault = none) (hstack : m.stack = x :: stack) :
    m.execute p .each =
      match ({ m with stack } : PlainMachine).entriesOf x with
      | .error fault => .fail m fault
      | .ok [] => .stop { m with stack }
      | .ok ((key, v) :: rest) =>
        .next ((suspendEntries { m with stack, resuming := false } rest).visit key v) := by
  simp only [execute, PlainMachine.iterate, PlainMachine.popOperand, hfault, hstack]
  rfl

/-- The entries that are left wait from now on. -/
theorem isAt_suspendEntries (hm : IsAt vars resuming fault ⟨pc, stack, paths⟩ waiting m)
    (rest : List (Value × Value)) :
    IsAt vars resuming fault ⟨pc, stack, paths⟩ (suspended pc stack paths waiting rest)
      (m.suspendEntries rest) := by
  rw [PlainMachine.suspendEntries, suspended]
  split
  · exact hm
  · refine { hm with inside := List.forall_mem_cons.mpr ⟨hm.top, hm.inside⟩, waiting := ?_ }
    show (⟨m.pc, .entries rest :: m.stack, m.paths⟩ : Spot) :: m.branches.map (·.spot) = _
    rw [hm.waiting, hm.pc, hm.stack, hm.paths]

theorem isAt_visit (hm : IsAt vars resuming fault ⟨pc, stack, paths⟩ waiting m) (key v : Value) :
    IsAt vars resuming fault ⟨pc, .value v :: stack, entered paths key v⟩ waiting
      (m.visit key v) := by
  have hstack := congrArg (Operand.value v :: ·) hm.stack
  have hpaths := hm.paths
  rw [PlainMachine.visit, PlainMachine.tracksPath, hpaths]
  cases paths with
  | nil => exact { hm with stack := hstack }
  | cons r rest => exact { hm with stack := hstack, paths := rfl }

/-- An iteration that takes up these entries, from a value or from what an entry before them has
left, visits them. -/
theorem yields_iterate {entries : List (Value × Value)}
    (hm : IsAt vars resuming none ⟨pc, x :: stack, paths⟩ waiting m)
    (hentries : ({ m with stack } : PlainMachine).entriesOf x = .ok entries)
    (h : p.Visits vars pc stack paths waiting entries items) :
    (m.execute p .each).Yields p items := by
  rw [execute_each hm.fault hm.stack, hentries]
  cases entries with
  | nil => exact yields_stop (m := { m with stack }) { hm.toCarries with } (by rwa [hm.fault])
  | cons entry rest =>
    have hforward : IsAt vars false none ⟨pc, stack, paths⟩ waiting
        { m with stack, resuming := false } := { hm with stack := rfl, resuming := rfl }
    have hvisit := isAt_visit (isAt_suspendEntries hforward rest) entry.1 entry.2
    exact yields_next (h _ { hvisit with pc := congrArg (· + 1) hvisit.pc })

theorem goes_each {entries : List (Value × Value)} (hat : p.at? pc = some .each)
    (hreached : Reached paths v) (hv : v.keyed? = some entries)
    (h : p.Visits vars pc stack paths waiting entries items) :
    p.Goes vars ⟨pc, .value v :: stack, paths⟩ waiting items :=
  .of_execute hat fun m hm => yields_iterate hm
    (by rw [entriesOf_value (m := { m with stack }) hm.paths hreached, hv]) h

/-- Only a container can be iterated. -/
theorem goes_each_fault (hat : p.at? pc = some .each) (hreached : Reached paths v)
    (hv : v.keyed? = none) (h : p.Unwinds vars (some (.notIterable v)) waiting items) :
    p.Goes vars ⟨pc, .value v :: stack, paths⟩ waiting items := by
  refine .of_fail hat h fun m hm => ⟨m, ?_, hm.toCarries⟩
  rw [execute_each hm.fault hm.stack, entriesOf_value (m := { m with stack }) hm.paths hreached, hv]

/-- What an entry has left is visited after it. -/
theorem unwinds_suspended {rest : List (Value × Value)} (hat : p.at? pc = some .each)
    (h : p.Visits vars pc stack paths waiting rest items) :
    p.Unwinds vars none (suspended pc stack paths waiting rest) items := by
  cases rest with
  | nil => exact h
  | cons entry rest => exact .of_execute hat fun m hm => yields_iterate hm rfl h

/-- A fault passes an iteration. -/
theorem unwinds_suspended_fault {raised : Fault} (hat : p.at? pc = some .each)
    (h : p.Unwinds vars (some raised) waiting items) (rest : List (Value × Value)) :
    p.Unwinds vars (some raised) (suspended pc stack paths waiting rest) items := by
  cases rest with
  | nil => exact h
  | cons entry rest => exact unwinds_unhandled hat rfl rfl h

/-! ## Recorded paths -/

theorem goes_pathBegin (hat : p.at? pc = some .pathBegin)
    (h : p.Goes vars ⟨pc + 1, .value v :: stack, .start v :: paths⟩ waiting items) :
    p.Goes vars ⟨pc, .value v :: stack, paths⟩ waiting items := by
  refine .of_next hat h fun m hm => ⟨{ m with paths := .start v :: m.paths }, ?_, { hm with
    paths := congrArg (PlainRecord.start v :: ·) hm.paths }⟩
  rw [execute, PlainMachine.openPath, hm.stack]
  rfl

section pathEnd

variable {components : List Value} {r : PlainRecord} {rest outer : List PlainRecord}

theorem execute_pathEnd (hstack : m.stack = .value v :: stack) (hpaths : m.paths = r :: rest)
    (hcut : cutPath [] (r :: rest) = some (components, outer)) :
    m.execute p .pathEnd =
      if r.value.equal v then
        .next { m with stack := .value (.array components.toArray) :: stack, paths := outer }
      else .fail m (.invalidPath v) := by
  have hvalue : m.popValue = .ok (v, { m with stack }) := by
    rw [PlainMachine.popValue, PlainMachine.popOperand, hstack]
    rfl
  rw [execute, PlainMachine.closePath, hpaths, hcut]
  dsimp only
  rw [hvalue]
  dsimp only
  rw [PlainMachine.isReached, hpaths]
  cases hreached : r.value.equal v with
  | false => simp [hreached]
  | true => simp [hreached, PlainMachine.pushValue, PlainMachine.pushOperand]

theorem goes_pathEnd (hat : p.at? pc = some .pathEnd)
    (hcut : cutPath [] (r :: rest) = some (components, outer)) (hreached : r.value.equal v = true)
    (h : p.Goes vars ⟨pc + 1, .value (.array components.toArray) :: stack, outer⟩ waiting items) :
    p.Goes vars ⟨pc, .value v :: stack, r :: rest⟩ waiting items := by
  refine .of_next hat h fun m hm => ?_
  have hexecute := execute_pathEnd (p := p) hm.stack hm.paths hcut
  rw [if_pos hreached] at hexecute
  exact ⟨_, hexecute, { hm with stack := rfl, paths := rfl }⟩

theorem goes_pathEnd_fault (hat : p.at? pc = some .pathEnd)
    (hcut : cutPath [] (r :: rest) = some (components, outer)) (hastray : r.value.equal v = false)
    (h : p.Unwinds vars (some (.invalidPath v)) waiting items) :
    p.Goes vars ⟨pc, .value v :: stack, r :: rest⟩ waiting items := by
  refine .of_fail hat h fun m hm => ⟨m, ?_, hm.toCarries⟩
  rw [execute_pathEnd hm.stack hm.paths hcut, if_neg (by simp [hastray])]

end pathEnd

/-! ## Native calls -/

section callNative

variable {id : NativeId} {input output subject component : Value} {args : List Value}
  {failure : NativeFailure} {r : PlainRecord} {rest : List PlainRecord}

/-- A function that a table has under a number is called by it, with as many arguments as it
takes. -/
theorem call_eq_run {natives : NativeTable} {native : Native} (hget : natives.get? id = some native)
    (harity : args.length = native.arity) (input : Value) :
    natives.call id input args = native.run input args := by
  rw [NativeTable.call, NativeTable.resolve, hget]
  dsimp only
  rw [if_pos harity]

theorem popValues_eq (h : m.stack = args.map .value ++ stack) :
    m.popValues args.length = .ok (args, { m with stack }) := by
  induction args generalizing m with
  | nil =>
    rw [List.map_nil, List.nil_append] at h
    rw [← h]
    rfl
  | cons arg args ih =>
    have hvalue : m.popValue = .ok (arg, { m with stack := args.map .value ++ stack }) := by
      rw [PlainMachine.popValue, PlainMachine.popOperand, h]
      rfl
    rw [List.length_cons, PlainMachine.popValues, hvalue]
    dsimp only
    rw [ih rfl]

theorem tripFlag_eq (m : PlainMachine) (table : NativeTable) (id : NativeId) (argc : Nat) :
    ∃ signals, m.tripFlag table id argc = { m with signals } := by
  unfold PlainMachine.tripFlag
  split
  · exact ⟨_, rfl⟩
  · exact ⟨m.signals, rfl⟩

/-- A call takes its input and its arguments, and answers what the function does. -/
theorem execute_callNative (p : Program) (id : NativeId)
    (hstack : m.stack = .value input :: (args.map .value ++ stack)) :
    ∃ signals, m.execute p (.callNative id args.length) =
      match p.natives.call id input args with
      | .error failure => .fail { m with stack, signals } (.ofFailure failure)
      | .ok output =>
        match recordStep { m with stack, signals } (p.natives.roleOf id) args output with
        | .error fault => .fail { m with stack, signals } fault
        | .ok recorded => .next (recorded.pushValue output) := by
  have hcall : m.popCall args.length = .ok (input, args, { m with stack }) := by
    have hvalue : m.popValue = .ok (input, { m with stack := args.map .value ++ stack }) := by
      rw [PlainMachine.popValue, PlainMachine.popOperand, hstack]
      rfl
    rw [PlainMachine.popCall, hvalue]
    dsimp only
    rw [popValues_eq rfl]
  obtain ⟨signals, htrip⟩ := tripFlag_eq { m with stack } p.natives id args.length
  rw [execute, PlainMachine.callNative, hcall]
  dsimp only
  rw [htrip]
  exact ⟨signals, rfl⟩

theorem execute_callNative_failure (hstack : m.stack = .value input :: (args.map .value ++ stack))
    (hcall : p.natives.call id input args = .error failure) :
    ∃ signals, m.execute p (.callNative id args.length) =
      .fail { m with stack, signals } (.ofFailure failure) := by
  obtain ⟨signals, hexecute⟩ := execute_callNative p id hstack
  rw [hcall] at hexecute
  exact ⟨signals, hexecute⟩

/-- While no path is recorded, a call only pushes its answer. -/
theorem execute_callNative_answer (hstack : m.stack = .value input :: (args.map .value ++ stack))
    (hpaths : m.paths = []) (hcall : p.natives.call id input args = .ok output) :
    ∃ signals, m.execute p (.callNative id args.length) =
      .next { m with stack := .value output :: stack, signals } := by
  obtain ⟨signals, hexecute⟩ := execute_callNative p id hstack
  have hrecord : recordStep { m with stack, signals } (p.natives.roleOf id) args output =
      .ok { m with stack, signals } := by
    rw [PlainMachine.recordStep, PlainMachine.tracksPath, hpaths]
    rfl
  rw [hcall] at hexecute
  dsimp only at hexecute
  rw [hrecord] at hexecute
  exact ⟨signals, hexecute⟩

theorem goes_call_failure (hat : p.at? pc = some (.callNative id args.length))
    (hcall : p.natives.call id input args = .error failure)
    (h : p.Unwinds vars (some (.ofFailure failure))
      (if (Fault.ofFailure failure).isFatal then [] else waiting) items) :
    p.Goes vars ⟨pc, .value input :: (args.map .value ++ stack), paths⟩ waiting items := by
  refine .of_fail hat h fun m hm => ?_
  obtain ⟨signals, hexecute⟩ := execute_callNative_failure hm.stack hcall
  exact ⟨_, hexecute, { hm.toCarries with }⟩

theorem goes_call (hat : p.at? pc = some (.callNative id args.length))
    (hcall : p.natives.call id input args = .ok output)
    (h : p.Goes vars ⟨pc + 1, .value output :: stack, []⟩ waiting items) :
    p.Goes vars ⟨pc, .value input :: (args.map .value ++ stack), []⟩ waiting items := by
  refine .of_next hat h fun m hm => ?_
  obtain ⟨signals, hexecute⟩ := execute_callNative_answer hm.stack hm.paths hcall
  exact ⟨_, hexecute, { hm with stack := rfl }⟩

theorem recordStep_eq (hpaths : m.paths = r :: rest) {role : Role}
    (hsubject : role.subject?.bind (args[·]?) = some subject)
    (hcomponent : role.component? args = some component) :
    m.recordStep role args output =
      if r.value.equal subject then .ok { m with paths := .step component output :: r :: rest }
      else .error (.invalidPath subject) := by
  rw [PlainMachine.recordStep, PlainMachine.tracksPath, hsubject, hcomponent]
  dsimp only
  rw [PlainMachine.isReached, hpaths]
  rfl

/-- While a path is recorded, a call that navigates from where the path has come adds a step. -/
theorem goes_call_step (hat : p.at? pc = some (.callNative id args.length))
    (hcall : p.natives.call id input args = .ok output)
    (hsubject : (p.natives.roleOf id).subject?.bind (args[·]?) = some subject)
    (hcomponent : (p.natives.roleOf id).component? args = some component)
    (hreached : r.value.equal subject = true)
    (h : p.Goes vars ⟨pc + 1, .value output :: stack, .step component output :: r :: rest⟩ waiting
      items) :
    p.Goes vars ⟨pc, .value input :: (args.map .value ++ stack), r :: rest⟩ waiting items := by
  refine .of_next hat h fun m hm => ?_
  obtain ⟨signals, hexecute⟩ := execute_callNative p id hm.stack
  rw [hcall] at hexecute
  dsimp only at hexecute
  rw [recordStep_eq (m := { m with stack, signals }) hm.paths hsubject hcomponent,
    if_pos hreached] at hexecute
  exact ⟨_, hexecute, { hm with stack := rfl, paths := rfl }⟩

/-- A call that navigates from anywhere else has no place in the path. -/
theorem goes_call_astray (hat : p.at? pc = some (.callNative id args.length))
    (hcall : p.natives.call id input args = .ok output)
    (hsubject : (p.natives.roleOf id).subject?.bind (args[·]?) = some subject)
    (hcomponent : (p.natives.roleOf id).component? args = some component)
    (hastray : r.value.equal subject = false)
    (h : p.Unwinds vars (some (.invalidPath subject)) waiting items) :
    p.Goes vars ⟨pc, .value input :: (args.map .value ++ stack), r :: rest⟩ waiting items := by
  refine .of_fail hat h fun m hm => ?_
  obtain ⟨signals, hexecute⟩ := execute_callNative p id hm.stack
  refine ⟨{ m with stack, signals }, ?_, { hm.toCarries with }⟩
  rw [hexecute, hcall]
  dsimp only
  rw [recordStep_eq (m := { m with stack, signals }) hm.paths hsubject hcomponent,
    if_neg (by simp [hastray])]

end callNative

end

/-! ## Whole runs -/

/-- A fresh register file holds nulls only, also after it has grown. -/
theorem replicate_isPrefix_growRegisters (initial size : Nat) :
    List.replicate size default <+:
      (Machine.growRegisters (Array.replicate initial default) size).toList := by
  unfold Machine.growRegisters
  rw [Array.size_replicate]
  split
  · rw [Array.toList_append, Array.toList_replicate, Array.toList_replicate,
      List.replicate_append_replicate, List.prefix_replicate_iff, List.length_replicate]
    exact ⟨by omega, rfl⟩
  · rw [Array.toList_replicate, List.prefix_replicate_iff, List.length_replicate]
    exact ⟨by omega, rfl⟩

/-- A run of a program that starts with a scope gives what comes of going forward inside it, with
its input on the stack and null in its variables. -/
theorem givesAll_of_goes {slots : Nat} {input : Value} (hat : p.at? 0 = some (.scope 0 slots))
    (h : p.Goes (List.replicate slots (.value .null)) ⟨1, [.value input], []⟩ [] items)
    (idle : Machine) (settings : Settings) :
    Machine.GivesAll p (idle.load settings input none) items := by
  refine Machine.givesAll_of_yields (Machine.coherent_load idle settings input none) ?_
  intro signals
  have hplain : ((idle.load settings input none).withSignals signals).plain =
      { PlainMachine.load settings input none with signals } :=
    congrArg (fun m : PlainMachine => { m with signals })
      (Machine.plain_load idle settings input none)
  rw [hplain]
  obtain ⟨ticks, hstep⟩ := step_eq_execute
    (m := { PlainMachine.load settings input none with signals }) rfl p (.scope 0 slots)
  have hvars := replicate_isPrefix_growRegisters settings.initialRegisters (0 + slots)
  nth_rewrite 1 [Nat.zero_add] at hvars
  refine yields_next (h _ ?_) _ ((dispatch_at rfl hat).trans (congrArg follow hstep))
  exact {
    interrupt := rfl, running := rfl, activation := ⟨p.length, rfl⟩, inside := nofun
    vars := hvars
    waiting := rfl, top := rfl, pc := rfl, stack := rfl, paths := rfl, resuming := rfl
    fault := rfl }

end Program
end QueryMachine
