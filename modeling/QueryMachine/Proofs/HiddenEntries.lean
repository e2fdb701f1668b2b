import QueryMachine.Proofs.ControlFlow
import QueryMachine.Proofs.PlainSimulation

/-!
# The entries of an iteration stay hidden

An iteration that has more entries to visit leaves them on the operand stack, but only on the one
that its branch saves. No other instruction ever finds them, and no register holds them.

* `Works`: what an instruction makes of operands that are all usable. They stay so, and the
  branch that it may leave behind saves the entries of an iteration on its top or none at all;
* `Hides`: where a machine may hold entries, which every dispatch keeps (`hides_dispatch`);
* `entries_hidden`: the same for the machine that shares its cells, in every state of a run.

All of it is proved of the machine without sharing, whose stacks are lists.
-/

namespace QueryMachine

/-! ## Operands -/

/-- An operand that instructions may work on: anything but the entries of an iteration. -/
def Operand.Usable : Operand → Prop
  | .entries _ => False
  | _ => True

theorem Operand.Usable.gather {x : Operand} (v : Value) (h : x.Usable) : (x.gather v).Usable := by
  unfold Operand.gather
  split
  · trivial
  · exact h

/-- What an iteration has still to visit: the entries of a container from some position on, which
is the position of one of them. -/
def Unvisited (rest : List (Value × Value)) : Prop :=
  ∃ v items next, Value.keyed? v = some items ∧ next < items.length ∧ rest = items.drop next

theorem Unvisited.ne_nil {rest : List (Value × Value)} (h : Unvisited rest) : rest ≠ [] := by
  obtain ⟨v, items, next, -, hnext, rfl⟩ := h
  simpa using hnext

/-- After a visit the iteration is at the next position, if there is one. -/
theorem Unvisited.tail {entry : Value × Value} {rest : List (Value × Value)}
    (h : Unvisited (entry :: rest)) (hne : rest ≠ []) : Unvisited rest := by
  obtain ⟨v, items, next, hv, hnext, hdrop⟩ := h
  have hrest : rest = items.drop (next + 1) := by
    rw [← List.tail_drop, ← hdrop, List.tail_cons]
  refine ⟨v, items, next + 1, hv, ?_, hrest⟩
  rw [hrest] at hne
  simpa using hne

theorem unvisited_of_keyed? {v : Value} {entry : Value × Value} {rest : List (Value × Value)}
    (hv : v.keyed? = some (entry :: rest)) : Unvisited (entry :: rest) :=
  ⟨v, entry :: rest, 0, hv, Nat.succ_pos _, rfl⟩

/-- The operands that an iteration leaves under its branch: the unvisited entries lie on top, and
nowhere else. -/
def Suspended (stack : List Operand) : Prop :=
  ∃ rest below, stack = .entries rest :: below ∧ Unvisited rest ∧ ∀ x ∈ below, x.Usable

/-- The operands that a branch of a kind saves. -/
def BranchKind.Saves : BranchKind → List Operand → Prop
  | .each, stack => Suspended stack
  | _, stack => ∀ x ∈ stack, x.Usable

/-! ## Faults -/

/-- A fault that says that it got entries where it cannot use them. -/
def Fault.NamesEntries : Fault → Prop
  | .invalidOperand _ got => got = "entries"
  | _ => False

theorem Operand.Usable.not_namesEntries {x : Operand} (h : x.Usable) (expected : String) :
    ¬ (Fault.invalidOperand expected x.kindName).NamesEntries := by
  cases x with
  | value v => simp [Fault.NamesEntries, kindName]
  | closure pc scope => simp [Fault.NamesEntries, kindName]
  | entries rest => cases h

theorem Fault.not_namesEntries_ofFailure (failure : NativeFailure) :
    ¬ (Fault.ofFailure failure).NamesEntries := by
  cases failure <;> exact id

/-- The machine after the instruction. -/
def PlainEffect.machine : PlainEffect → PlainMachine
  | .next m | .jump m _ | .stop m | .yield m _ | .fail m _ => m

/-- The fault of an instruction that failed. -/
def PlainEffect.fault? : PlainEffect → Option Fault
  | .fail _ fault => some fault
  | _ => none

namespace PlainMachine

variable {m m' e : PlainMachine} {x : Operand} {v : Value} {fault : Fault} {i : Instruction}
  {p : Program}

/-! ## Usable operands -/

/-- No operand on the stack or in a register is the entries of an iteration. -/
structure Tidy (m : PlainMachine) : Prop where
  stack : ∀ x ∈ m.stack, x.Usable
  registers : ∀ x ∈ m.registers, x.Usable

theorem Tidy.pushOperand (h : m.Tidy) (hx : x.Usable) : (m.pushOperand x).Tidy := by
  refine ⟨?_, h.registers⟩
  rintro y (_ | ⟨_, hy⟩)
  · exact hx
  · exact h.stack y hy

theorem Tidy.pushValue (h : m.Tidy) (v : Value) : (m.pushValue v).Tidy :=
  h.pushOperand trivial

/-! ### Popping -/

/-- What is popped is usable, and so is what lies below. -/
theorem Tidy.of_popOperand (h : m.Tidy) (hp : m.popOperand = .ok (x, m')) :
    x.Usable ∧ ∃ t, m' = { m with stack := t } ∧ Tidy { m with stack := t } := by
  obtain ⟨t, hstack, rfl⟩ := popOperand_eq_ok hp
  have hbelow : ∀ y ∈ t, y.Usable := fun y hy => h.stack y (hstack ▸ List.mem_cons_of_mem x hy)
  exact ⟨h.stack x (hstack ▸ List.mem_cons_self), t, rfl, hbelow, h.registers⟩

theorem Tidy.of_popValue (h : m.Tidy) (hp : m.popValue = .ok (v, m')) :
    ∃ t, m' = { m with stack := t } ∧ Tidy { m with stack := t } :=
  (h.of_popOperand (popValue_eq_ok hp)).2

theorem Tidy.of_popValues (h : m.Tidy) {count : Nat} {values : List Value}
    (hp : m.popValues count = .ok (values, m')) :
    ∃ t, m' = { m with stack := t } ∧ Tidy { m with stack := t } := by
  induction count generalizing m values with
  | zero =>
    cases hp
    exact ⟨m'.stack, rfl, h⟩
  | succ count ih =>
    rw [popValues] at hp
    split at hp
    · cases hp
    · rename_i v once hv
      obtain ⟨t, rfl, honce⟩ := h.of_popValue hv
      split at hp
      · cases hp
      · rename_i rest last hrest
        cases hp
        obtain ⟨t', rfl, hlast⟩ := ih honce hrest
        exact ⟨t', rfl, hlast⟩

theorem Tidy.of_popPairs (h : m.Tidy) {count : Nat} {following pairs : List (String × Value)}
    (hp : m.popPairs following count = .ok (pairs, m')) :
    ∃ t, m' = { m with stack := t } ∧ Tidy { m with stack := t } := by
  induction count generalizing m following with
  | zero =>
    cases hp
    exact ⟨m'.stack, rfl, h⟩
  | succ count ih =>
    rw [popPairs] at hp
    split at hp
    · cases hp
    · rename_i v once hv
      obtain ⟨t, rfl, honce⟩ := h.of_popValue hv
      split at hp
      · cases hp
      · rename_i key twice hkey
        obtain ⟨t', rfl, htwice⟩ := honce.of_popValue hkey
        obtain ⟨t'', rfl, hlast⟩ := ih htwice hp
        exact ⟨t'', rfl, hlast⟩
      · cases hp

theorem Tidy.of_popCall (h : m.Tidy) {argc : Nat} {input : Value} {args : List Value}
    (hp : m.popCall argc = .ok (input, args, m')) :
    ∃ t, m' = { m with stack := t } ∧ Tidy { m with stack := t } := by
  unfold popCall at hp
  split at hp
  · cases hp
  · rename_i v once hv
    obtain ⟨t, rfl, honce⟩ := h.of_popValue hv
    split at hp
    · cases hp
    · rename_i values last hvalues
      cases hp
      obtain ⟨t', rfl, hlast⟩ := honce.of_popValues hvalues
      exact ⟨t', rfl, hlast⟩

/-! ### Popping fails -/

theorem popOperand_eq_error (hp : m.popOperand = .error fault) : ¬ fault.NamesEntries := by
  unfold popOperand at hp
  split at hp
  · cases hp
  · cases hp
    exact id

theorem Tidy.popValue_eq_error (h : m.Tidy) (hp : m.popValue = .error fault) :
    ¬ fault.NamesEntries := by
  unfold popValue at hp
  split at hp
  · rename_i hpop
    cases hp
    exact popOperand_eq_error hpop
  · rename_i y popped hpop
    obtain ⟨hy, -⟩ := h.of_popOperand hpop
    cases y with
    | value w => cases hp
    | closure pc scope =>
      cases hp
      exact hy.not_namesEntries "value"
    | entries rest => cases hy

theorem Tidy.popValues_eq_error (h : m.Tidy) {count : Nat} (hp : m.popValues count = .error fault) :
    ¬ fault.NamesEntries := by
  induction count generalizing m with
  | zero => cases hp
  | succ count ih =>
    rw [popValues] at hp
    split at hp
    · rename_i hv
      cases hp
      exact h.popValue_eq_error hv
    · rename_i v once hv
      obtain ⟨t, rfl, honce⟩ := h.of_popValue hv
      split at hp
      · rename_i hrest
        cases hp
        exact ih honce hrest
      · cases hp

theorem Tidy.popPairs_eq_error (h : m.Tidy) {count : Nat} {following : List (String × Value)}
    (hp : m.popPairs following count = .error fault) : ¬ fault.NamesEntries := by
  induction count generalizing m following with
  | zero => cases hp
  | succ count ih =>
    rw [popPairs] at hp
    split at hp
    · rename_i hv
      cases hp
      exact h.popValue_eq_error hv
    · rename_i v once hv
      obtain ⟨t, rfl, honce⟩ := h.of_popValue hv
      split at hp
      · rename_i hkey
        cases hp
        exact honce.popValue_eq_error hkey
      · rename_i key twice hkey
        obtain ⟨t', rfl, htwice⟩ := honce.of_popValue hkey
        exact ih htwice hp
      · cases hp
        exact id

theorem Tidy.popCall_eq_error (h : m.Tidy) {argc : Nat} (hp : m.popCall argc = .error fault) :
    ¬ fault.NamesEntries := by
  unfold popCall at hp
  split at hp
  · rename_i hv
    cases hp
    exact h.popValue_eq_error hv
  · rename_i v once hv
    obtain ⟨t, rfl, honce⟩ := h.of_popValue hv
    split at hp
    · rename_i hvalues
      cases hp
      exact honce.popValues_eq_error hvalues
    · cases hp

/-! ## What instructions make of usable operands -/

/-- Only an append to a variable that holds a foreign value gets its own name for a type, and that
may be any name. -/
inductive Blames (m : PlainMachine) : Instruction → Fault → Prop where
  | foreign {a : Address} {place : Nat} {handle : Foreign} (hplace : m.register a = .ok place)
      (hholds : m.registers[place]? = some (.value (.foreign handle)))
      (hname : handle.typeName = "entries") :
      Blames m (.append a) (.invalidOperand "array" "entries")

/-- An instruction has worked on usable operands and left such, and the branch that it may have
left behind saves what a branch of its kind may save. -/
structure Works (m : PlainMachine) (i : Instruction) (effect : PlainEffect) : Prop where
  tidy : effect.machine.Tidy
  branches : effect.machine.branches = m.branches ∨
    ∃ b, effect.machine.branches = b :: m.branches ∧ b.pc = m.pc ∧
      i.branchKind? = some b.kind ∧ b.kind.Saves b.stack
  fault : ∀ fault, effect.fault? = some fault → fault.NamesEntries → Blames m i fault

theorem Works.goesOn {effect : PlainEffect} (h : effect.machine.Tidy)
    (hbranches : effect.machine.branches = m.branches) (hfault : effect.fault? = none) :
    Works m i effect := by
  refine ⟨h, .inl hbranches, ?_⟩
  intro fault hsome
  rw [hfault] at hsome
  cases hsome

theorem Works.fail (h : e.Tidy) (hbranches : e.branches = m.branches)
    (hfault : ¬ fault.NamesEntries) : Works m i (.fail e fault) := by
  refine ⟨h, .inl hbranches, ?_⟩
  intro fault' hsome hnames
  cases hsome
  exact absurd hnames hfault

/-! ### Operands -/

theorem works_dropTop (h : m.Tidy) : Works m i m.dropTop := by
  unfold dropTop
  split
  · rename_i hp
    exact .fail h rfl (popOperand_eq_error hp)
  · rename_i x popped hp
    obtain ⟨-, t, rfl, hpopped⟩ := h.of_popOperand hp
    exact .goesOn hpopped rfl rfl

theorem works_duplicate (h : m.Tidy) : Works m i m.duplicate := by
  unfold duplicate
  split
  · exact .fail h rfl id
  · rename_i x hx
    exact .goesOn (h.pushOperand (h.stack x (List.mem_of_head? hx))) rfl rfl

theorem works_exchange (h : m.Tidy) : Works m i m.exchange := by
  unfold exchange
  split
  · rename_i hp
    exact .fail h rfl (popOperand_eq_error hp)
  · rename_i x once hpx
    obtain ⟨hx, t, rfl, honce⟩ := h.of_popOperand hpx
    split
    · rename_i hp
      exact .fail h rfl (popOperand_eq_error hp)
    · rename_i y twice hpy
      obtain ⟨hy, t', rfl, htwice⟩ := honce.of_popOperand hpy
      exact .goesOn ((htwice.pushOperand hx).pushOperand hy) rfl rfl

theorem works_replaceTop (h : m.Tidy) (v : Value) : Works m i (m.replaceTop v) := by
  unfold replaceTop
  split
  · rename_i hp
    exact .fail h rfl (popOperand_eq_error hp)
  · rename_i x popped hp
    obtain ⟨-, t, rfl, hpopped⟩ := h.of_popOperand hp
    exact .goesOn (hpopped.pushValue v) rfl rfl

theorem works_buildObject (h : m.Tidy) (pairs : Nat) : Works m i (m.buildObject pairs) := by
  unfold buildObject
  split
  · rename_i hp
    exact .fail h rfl (h.popPairs_eq_error hp)
  · rename_i entries popped hp
    obtain ⟨t, rfl, hpopped⟩ := h.of_popPairs hp
    exact .goesOn (hpopped.pushValue _) rfl rfl

theorem works_jumpUnless (h : m.Tidy) (target : Nat) : Works m i (m.jumpUnless target) := by
  unfold jumpUnless
  split
  · rename_i hp
    exact .fail h rfl (h.popValue_eq_error hp)
  · rename_i condition popped hp
    obtain ⟨t, rfl, hpopped⟩ := h.of_popValue hp
    split
    · exact .goesOn hpopped rfl rfl
    · exact .goesOn hpopped rfl rfl

/-! ### Scopes, calls and variables -/

theorem works_callClosure (h : m.Tidy) : Works m i m.callClosure := by
  unfold callClosure
  split
  · rename_i hp
    exact .fail h rfl (popOperand_eq_error hp)
  · rename_i target scope popped hp
    obtain ⟨-, t, rfl, hpopped⟩ := h.of_popOperand hp
    exact .goesOn ⟨hpopped.stack, hpopped.registers⟩ rfl rfl
  · rename_i other popped _ hp
    obtain ⟨hother, -⟩ := h.of_popOperand hp
    exact .fail h rfl (hother.not_namesEntries "closure")

theorem usable_growRegisters {registers : Array Operand} (size : Nat)
    (h : ∀ x ∈ registers, x.Usable) : ∀ x ∈ Machine.growRegisters registers size, x.Usable := by
  unfold Machine.growRegisters
  split
  · intro x hx
    rcases Array.mem_append.mp hx with hold | hnew
    · exact h x hold
    · rw [Array.eq_of_mem_replicate hnew]
      trivial
  · exact h

theorem works_enterScope (h : m.Tidy) (id : ScopeId) (slots length : Nat) :
    Works m i (m.enterScope id slots length) :=
  .goesOn ⟨h.stack, usable_growRegisters _ h.registers⟩ rfl rfl

theorem works_leaveScope (h : m.Tidy) : Works m i m.leaveScope := by
  unfold leaveScope
  split
  · exact .goesOn h rfl rfl
  · split
    · exact .fail h rfl id
    · dsimp only
      split
      · split
        · rename_i hp
          exact .fail ⟨h.stack, h.registers⟩ rfl (h.popValue_eq_error hp)
        · rename_i v popped hp
          obtain ⟨t, rfl, hpopped⟩ := h.of_popValue hp
          exact .goesOn ⟨hpopped.stack, hpopped.registers⟩ rfl rfl
      · exact .goesOn ⟨h.stack, h.registers⟩ rfl rfl

theorem register_eq_error {a : Address} (hr : m.register a = .error fault) :
    ¬ fault.NamesEntries := by
  unfold register at hr
  split at hr
  · cases hr
    exact id
  · dsimp only at hr
    split at hr
    · cases hr
    · cases hr
      exact id

theorem Tidy.getD_registers (h : m.Tidy) (place : Nat) :
    (m.registers.getD place default).Usable := by
  rw [Array.getD_eq_getD_getElem?]
  cases hx : m.registers[place]? with
  | none => trivial
  | some x => exact h.registers x (Array.mem_of_getElem? hx)

theorem works_loadVariable (h : m.Tidy) (a : Address) : Works m i (m.loadVariable a) := by
  unfold loadVariable
  split
  · rename_i hr
    exact .fail h rfl (register_eq_error hr)
  · rename_i place _
    exact .goesOn (h.pushOperand (h.getD_registers place)) rfl rfl

theorem works_storeVariable (h : m.Tidy) (a : Address) : Works m i (m.storeVariable a) := by
  unfold storeVariable
  split
  · rename_i hr
    exact .fail h rfl (register_eq_error hr)
  · rename_i place _
    split
    · rename_i hp
      exact .fail h rfl (popOperand_eq_error hp)
    · rename_i x popped hp
      obtain ⟨hx, t, rfl, hpopped⟩ := h.of_popOperand hp
      refine .goesOn ⟨hpopped.stack, ?_⟩ rfl rfl
      intro y hy
      rcases Array.mem_or_eq_of_mem_setIfInBounds hy with hold | rfl
      · exact h.registers y hold
      · exact hx

theorem usable_modify {registers : Array Operand} (place : Nat) (v : Value)
    (h : ∀ x ∈ registers, x.Usable) : ∀ x ∈ registers.modify place (.gather v), x.Usable := by
  intro x hx
  obtain ⟨k, hk⟩ := Array.mem_iff_getElem?.mp hx
  rw [Array.getElem?_modify] at hk
  split at hk
  · obtain ⟨y, hy, rfl⟩ := Option.map_eq_some_iff.mp hk
    exact (h y (Array.mem_of_getElem? hy)).gather v
  · exact h x (Array.mem_of_getElem? hk)

theorem works_appendVariable (h : m.Tidy) (a : Address) :
    Works m (.append a) (m.appendVariable a) := by
  unfold appendVariable
  split
  · rename_i hr
    exact .fail h rfl (register_eq_error hr)
  · rename_i place hplace
    split
    · rename_i hp
      exact .fail h rfl (h.popValue_eq_error hp)
    · rename_i v popped hp
      obtain ⟨t, rfl, hpopped⟩ := h.of_popValue hp
      split
      · exact .goesOn ⟨hpopped.stack, usable_modify place v h.registers⟩ rfl rfl
      · rename_i other _ hother
        refine ⟨h, .inl rfl, ?_⟩
        intro fault hsome hnames
        cases hsome
        -- among the values only a foreign one can have a type of that name
        cases other with
        | foreign handle =>
          have hname : handle.typeName = "entries" := hnames
          rw [show (Value.foreign handle).typeName = "entries" from hname]
          refine .foreign hplace ?_ hname
          rw [Array.getD_eq_getD_getElem?] at hother
          cases hx : m.registers[place]? with
          | none =>
            rw [hx] at hother
            cases hother
          | some x =>
            rw [hx] at hother
            exact congrArg some hother
        | _ => simp [Fault.NamesEntries, Value.typeName] at hnames
      · have husable := h.getD_registers place
        exact .fail h rfl (husable.not_namesEntries "array")

/-! ### Recorded paths and native calls -/

theorem works_openPath (h : m.Tidy) : Works m i m.openPath := by
  unfold openPath
  split
  · exact .fail h rfl id
  · rename_i x hx
    have husable : x.Usable := h.stack x (List.mem_of_head? hx)
    cases x with
    | value v => exact .goesOn ⟨h.stack, h.registers⟩ rfl rfl
    | closure pc scope => exact .fail h rfl (husable.not_namesEntries "value")
    | entries rest => cases husable

theorem works_closePath (h : m.Tidy) : Works m i m.closePath := by
  unfold closePath
  split
  · exact .fail h rfl id
  · split
    · rename_i hp
      exact .fail h rfl (h.popValue_eq_error hp)
    · rename_i v popped hp
      obtain ⟨t, rfl, hpopped⟩ := h.of_popValue hp
      split
      · exact .fail h rfl id
      · refine .goesOn (Tidy.pushValue ?_ _) rfl rfl
        exact ⟨hpopped.stack, hpopped.registers⟩

theorem recordStep_eq_ok {role : Role} {args : List Value} {output : Value}
    (hr : m.recordStep role args output = .ok m') : ∃ paths, m' = { m with paths } := by
  unfold recordStep at hr
  split at hr
  · cases hr
    exact ⟨m.paths, rfl⟩
  · split at hr
    · split at hr
      · cases hr
        exact ⟨_, rfl⟩
      · cases hr
    · cases hr
      exact ⟨m.paths, rfl⟩

theorem recordStep_eq_error {role : Role} {args : List Value} {output : Value}
    (hr : m.recordStep role args output = .error fault) : ¬ fault.NamesEntries := by
  unfold recordStep at hr
  split at hr
  · cases hr
  · split at hr
    · split at hr
      · cases hr
      · cases hr
        exact id
    · cases hr

theorem tripFlag_eq (m : PlainMachine) (table : NativeTable) (id : NativeId) (argc : Nat) :
    ∃ signals, m.tripFlag table id argc = { m with signals } := by
  unfold tripFlag
  split
  · exact ⟨_, rfl⟩
  · exact ⟨m.signals, rfl⟩

theorem works_callNative (h : m.Tidy) (table : NativeTable) (id : NativeId) (argc : Nat) :
    Works m i (m.callNative table id argc) := by
  unfold callNative
  split
  · rename_i hp
    exact .fail h rfl (h.popCall_eq_error hp)
  · rename_i input args popped hp
    obtain ⟨t, rfl, hpopped⟩ := h.of_popCall hp
    obtain ⟨signals, hcalled⟩ := tripFlag_eq { m with stack := t } table id argc
    rw [hcalled]
    dsimp only
    split
    · rename_i failure _
      exact .fail ⟨hpopped.stack, hpopped.registers⟩ rfl
        (Fault.not_namesEntries_ofFailure failure)
    · split
      · rename_i hr
        exact .fail ⟨hpopped.stack, hpopped.registers⟩ rfl (recordStep_eq_error hr)
      · rename_i hr
        obtain ⟨paths, rfl⟩ := recordStep_eq_ok hr
        refine .goesOn (Tidy.pushValue ?_ _) rfl rfl
        exact ⟨hpopped.stack, hpopped.registers⟩

/-! ### Branching -/

/-- A branch that is no iteration's saves the usable operands of the moment. -/
theorem works_pushBranch (h : m.Tidy) {kind : BranchKind} (hi : i.branchKind? = some kind)
    (hkind : kind ≠ .each) : Works m i (.next (m.pushBranch kind)) where
  tidy := ⟨h.stack, h.registers⟩
  branches := by
    refine .inr ⟨_, rfl, rfl, hi, ?_⟩
    cases kind with
    | each => exact absurd rfl hkind
    | fork | forkOpt | forkLabel => exact h.stack
  fault := fun fault hsome => by cases hsome

theorem works_fork (h : m.Tidy) (target : Nat) : Works m (.fork target) (m.fork target) := by
  unfold fork
  split
  · exact works_pushBranch h rfl (by decide)
  · split
    · exact .goesOn h rfl rfl
    · exact .goesOn ⟨h.stack, h.registers⟩ rfl rfl

theorem works_forkOpt (h : m.Tidy) (target : Nat) :
    Works m (.forkOpt target) (m.forkOpt target) := by
  unfold forkOpt
  split
  · exact works_pushBranch h rfl (by decide)
  · split
    · exact .goesOn h rfl rfl
    · rename_i fault _
      split
      · refine .goesOn (Tidy.pushValue ?_ fault.caught) rfl rfl
        exact ⟨h.stack, h.registers⟩
      · exact .goesOn h rfl rfl

theorem works_forkLabel (h : m.Tidy) (label : String) :
    Works m (.forkLabel label) (m.forkLabel label) := by
  unfold forkLabel
  split
  · exact works_pushBranch h rfl (by decide)
  · split
    · exact .goesOn ⟨h.stack, h.registers⟩ rfl rfl
    · exact .goesOn h rfl rfl

/-! ### Iteration -/

/-- Visiting an entry leaves what is unvisited under a branch, and only there. -/
theorem works_visit {t : List Operand} (h : Tidy { m with stack := t }) {key v : Value}
    {rest : List (Value × Value)} (hrest : Unvisited ((key, v) :: rest)) :
    Works m .each
      (.next ((suspendEntries { m with stack := t, resuming := false } rest).visit key v)) := by
  have hvisit : ∀ {e : PlainMachine}, e.stack = t → e.registers = m.registers →
      (e.visit key v).Tidy ∧ (e.visit key v).branches = e.branches := by
    intro e hstack hregisters
    have he : e.Tidy := ⟨hstack ▸ h.stack, hregisters ▸ h.registers⟩
    unfold visit
    dsimp only
    split
    · have hstep : Tidy { e with paths := .step key v :: e.paths } := ⟨he.stack, he.registers⟩
      exact ⟨hstep.pushValue v, rfl⟩
    · exact ⟨he.pushValue v, rfl⟩
  unfold suspendEntries
  split
  · obtain ⟨htidy, hbranches⟩ :=
      hvisit (e := { m with stack := t, resuming := false }) rfl rfl
    exact .goesOn htidy hbranches rfl
  · rename_i hmore
    have hmore' : rest ≠ [] := fun hnil => hmore (by rw [hnil]; rfl)
    obtain ⟨htidy, hbranches⟩ := hvisit
      (e := { (pushOperand { m with stack := t, resuming := false } (.entries rest)).pushBranch
        .each with stack := t }) rfl rfl
    refine ⟨htidy, .inr ⟨_, hbranches, rfl, rfl, ?_⟩, fun fault hsome => by cases hsome⟩
    exact ⟨rest, t, rfl, hrest.tail hmore', h.stack⟩

/-- An iteration over a container visits its first entry. -/
theorem works_iterate (h : m.Tidy) : Works m .each m.iterate := by
  unfold iterate
  split
  · exact .goesOn h rfl rfl
  · split
    · rename_i hp
      exact .fail h rfl (popOperand_eq_error hp)
    · rename_i x popped hp
      obtain ⟨hx, t, rfl, hpopped⟩ := h.of_popOperand hp
      cases x with
      | entries rest => cases hx
      | closure pc scope => exact .fail h rfl (hx.not_namesEntries "value")
      | value v =>
        cases hentries : entriesOf { m with stack := t } (.value v) with
        | error fault =>
          refine .fail h rfl ?_
          simp only [entriesOf] at hentries
          split at hentries
          · cases hentries
            exact id
          · split at hentries
            · cases hentries
            · cases hentries
              exact id
        | ok entries =>
          cases entries with
          | nil => exact .goesOn hpopped rfl rfl
          | cons entry rest =>
            refine works_visit hpopped (unvisited_of_keyed? (v := v) ?_)
            simp only [entriesOf] at hentries
            split at hentries
            · cases hentries
            · split at hentries
              · rename_i hkeyed
                cases hentries
                exact hkeyed
              · cases hentries

/-- An iteration that resumes finds an entry, and visits it. -/
theorem works_resumed (h : ∀ x ∈ m.registers, x.Usable) (hsuspended : Suspended m.stack)
    (hfault : m.fault = none) :
    Works m .each m.iterate ∧ ∃ m', m.iterate = .next m' := by
  obtain ⟨rest, below, hstack, hrest, hbelow⟩ := hsuspended
  cases rest with
  | nil => exact absurd rfl hrest.ne_nil
  | cons entry rest =>
    obtain ⟨key, v⟩ := entry
    have heq : m.iterate =
        .next ((suspendEntries { m with stack := below, resuming := false } rest).visit key v) := by
      simp only [iterate, hfault, popOperand, hstack, entriesOf, Option.isSome_none,
        Bool.false_eq_true, if_false]
    rw [heq]
    exact ⟨works_visit (t := below) ⟨hbelow, h⟩ hrest, _, rfl⟩

/-! ### All instructions -/

theorem works_execute (h : m.Tidy) (p : Program) (i : Instruction) :
    Works m i (m.execute p i) := by
  cases i with
  | nop | backtrack | jump => exact .goesOn h rfl rfl
  | push v => exact .goesOn (h.pushValue v) rfl rfl
  | pop => exact works_dropTop h
  | dup => exact works_duplicate h
  | swap => exact works_exchange h
  | const v => exact works_replaceTop h v
  | load a => exact works_loadVariable h a
  | store a => exact works_storeVariable h a
  | append a => exact works_appendVariable h a
  | object pairs => exact works_buildObject h pairs
  | fork target => exact works_fork h target
  | forkOpt target => exact works_forkOpt h target
  | forkLabel label => exact works_forkLabel h label
  | each => exact works_iterate h
  | jumpIfNot target => exact works_jumpUnless h target
  | call target => exact .goesOn ⟨h.stack, h.registers⟩ rfl rfl
  | callNative id argc => exact works_callNative h p.natives id argc
  | pushPc target => exact .goesOn (h.pushOperand trivial) rfl rfl
  | callPc => exact works_callClosure h
  | scope id slots => exact works_enterScope h id slots p.length
  | ret => exact works_leaveScope h
  | pathBegin => exact works_openPath h
  | pathEnd => exact works_closePath h

/-! ## Where a machine holds entries -/

/-- A machine holds entries only where its branches save them, and on the top of its operands
when it is about to resume at the iteration that they belong to. -/
structure Hides (p : Program) (m : PlainMachine) : Prop where
  registers : ∀ x ∈ m.registers, x.Usable
  stack : (∀ x ∈ m.stack, x.Usable) ∨
    m.resuming = true ∧ p.at? m.pc = some .each ∧ Suspended m.stack
  branches : ∀ b ∈ m.branches, b.kind.Saves b.stack ∧
    ∃ i, p.at? b.pc = some i ∧ i.branchKind? = some b.kind

/-- Only an iteration leaves branches of its kind behind. -/
theorem each_of_branchKind? (h : i.branchKind? = some .each) : i = .each := by
  cases i with
  | each => rfl
  | fork | forkOpt | forkLabel => simp [Instruction.branchKind?] at h
  | _ => cases h

theorem Hides.raise (h : Hides p m) (fault : Fault) : Hides p (m.raise fault) := by
  refine ⟨h.registers, h.stack, ?_⟩
  intro b hb
  unfold PlainMachine.raise at hb
  split at hb
  · cases hb
  · exact h.branches b hb

/-- Taking up a branch of an iteration is resuming at it. -/
theorem Hides.unwind (h : Hides p m) : Hides p m.unwind.machine := by
  cases hb : m.branches with
  | nil =>
    rw [unwind_nil hb]
    exact ⟨h.registers, h.stack, h.branches⟩
  | cons b older =>
    rw [unwind_cons hb]
    obtain ⟨hsaves, i, hat, hi⟩ := h.branches b (hb ▸ List.mem_cons_self)
    refine ⟨h.registers, ?_, fun b' hb' => h.branches b' (hb ▸ List.mem_cons_of_mem b hb')⟩
    show (∀ x ∈ b.stack, x.Usable) ∨ true = true ∧ p.at? b.pc = some .each ∧ Suspended b.stack
    cases hkind : b.kind with
    | each =>
      rw [hkind] at hsaves hi
      obtain rfl := each_of_branchKind? hi
      exact .inr ⟨rfl, hat, hsaves⟩
    | fork | forkOpt | forkLabel =>
      rw [hkind] at hsaves
      exact .inl hsaves

/-- After an instruction that has worked on usable operands, wherever the run goes. -/
theorem Works.hides {effect : PlainEffect} (h : Works m i effect) (hhides : Hides p m)
    (hat : p.at? m.pc = some i) : Hides p (follow effect).machine := by
  have hbranches : ∀ b ∈ effect.machine.branches, b.kind.Saves b.stack ∧
      ∃ i, p.at? b.pc = some i ∧ i.branchKind? = some b.kind := by
    intro b hb
    rcases h.branches with hsame | ⟨new, hnew, hpc, hkind, hsaves⟩
    · exact hhides.branches b (hsame ▸ hb)
    · rw [hnew] at hb
      cases hb with
      | head => exact ⟨hsaves, i, hpc ▸ hat, hkind⟩
      | tail _ hb => exact hhides.branches b hb
  have hafter : Hides p effect.machine := ⟨h.tidy.registers, .inl h.tidy.stack, hbranches⟩
  cases effect with
  | next | jump | yield => exact ⟨hafter.registers, .inl h.tidy.stack, hafter.branches⟩
  | stop => exact hafter.unwind
  | fail e fault => exact (hafter.raise fault).unwind

/-! ## Runs -/

theorem Works.of_ticks {ticks : Nat} {effect : PlainEffect} (h : Works { m with ticks } i effect) :
    Works m i effect := by
  refine ⟨h.tidy, h.branches, ?_⟩
  intro fault hsome hnames
  cases h.fault fault hsome hnames with
  | foreign hplace hholds hname => exact .foreign hplace hholds hname

/-- Either the dispatched instruction works on usable operands and on what it has suspended
itself, or it hands the machine on to the branches as it is. -/
theorem step_cases (h : Hides p m) (hat : p.at? m.pc = some i) :
    Works m i (m.step p i) ∨ ∃ ticks, m.step p i = .stop { m with ticks } ∨
      ∃ reason, m.step p i = .fail { m with ticks } (.canceled reason) := by
  rcases step_eq m p i with ⟨ticks, hstep⟩ | ⟨reason, hstep⟩
  · rw [hstep]
    rcases h.stack with hstack | ⟨-, hat', hsuspended⟩
    · have htidy : Tidy { m with ticks } := ⟨hstack, h.registers⟩
      exact .inl (Works.of_ticks (works_execute htidy p i))
    · obtain rfl := Option.some.inj (hat.symm.trans hat')
      by_cases hfault : m.fault = none
      · exact .inl (Works.of_ticks
          (works_resumed (m := { m with ticks }) h.registers hsuspended hfault).1)
      · -- a fault passes over the iteration
        right
        refine ⟨ticks, .inl ?_⟩
        rw [execute, iterate, if_pos (Option.isSome_iff_ne_none.mpr hfault)]
  · exact .inr ⟨0, .inr ⟨reason, hstep⟩⟩

theorem tidy_step (h : m.Tidy) (p : Program) (i : Instruction) : (m.step p i).machine.Tidy := by
  rcases step_eq m p i with ⟨ticks, hstep⟩ | ⟨reason, hstep⟩
  · have htidy : Tidy { m with ticks } := ⟨h.stack, h.registers⟩
    rw [hstep]
    exact (works_execute htidy p i).tidy
  · rw [hstep]
    exact ⟨h.stack, h.registers⟩

theorem hides_dispatch (h : Hides p m) : Hides p (dispatch p m).machine := by
  cases hfinished : m.finished with
  | true =>
    rw [dispatch_finished hfinished]
    exact h
  | false =>
    cases hat : p.at? m.pc with
    | none =>
      rw [dispatch_outside hfinished hat]
      exact h.unwind
    | some i =>
      rw [dispatch_at hfinished hat]
      rcases step_cases h hat with hworks | ⟨ticks, hstop | ⟨reason, hfail⟩⟩
      · exact hworks.hides h hat
      · have hticks : Hides p { m with ticks } := ⟨h.registers, h.stack, h.branches⟩
        rw [hstop]
        exact hticks.unwind
      · have hticks : Hides p { m with ticks } := ⟨h.registers, h.stack, h.branches⟩
        rw [hfail]
        exact (hticks.raise _).unwind

theorem hides_load (p : Program) (settings : Settings) (input : Value)
    (interrupt : Option Interrupt) : Hides p (load settings input interrupt) where
  registers := by
    intro x hx
    rw [Array.eq_of_mem_replicate hx]
    trivial
  stack := by
    left
    rintro x (_ | ⟨_, hx⟩)
    · trivial
    · cases hx
  branches := fun _ hb => by cases hb

end PlainMachine

/-! ## The machine that shares its cells -/

namespace Machine

variable {p : Program} {m : Machine} {i : Instruction} {signals : Nat → Signals}

/-- No operand on the current stack or in a register is the entries of an iteration. -/
structure Tidy (m : Machine) : Prop where
  stack : ∀ x ∈ m.stack.toList, x.Usable
  registers : ∀ x ∈ m.registers, x.Usable

/-- Where a machine holds entries: in no register, on the current operands only on the top and only
to resume at their iteration, and on what a branch saves exactly if an iteration left it behind. -/
structure Hides (p : Program) (m : Machine) : Prop where
  registers : ∀ x ∈ m.registers, x.Usable
  stack : (∀ x ∈ m.stack.toList, x.Usable) ∨
    m.resuming = true ∧ p.at? m.pc = some .each ∧ Suspended m.stack.toList
  branches : ∀ b ∈ m.branches, b.kind.Saves (m.stack.listAt b.stack.top)

theorem hides_of_plain (h : m.plain.Hides p) : m.Hides p where
  registers := h.registers
  stack := h.stack
  branches := fun _ hb => (h.branches _ (List.mem_map_of_mem hb)).1

theorem plain_hides_course (hstart : m.Coherent) (h : m.plain.Hides p) (n : Nat) :
    (course p m signals n).plain.Hides p := by
  induction n with
  | zero => exact h
  | succ n ih =>
    have hcoherent := (coherent_course hstart p signals n).withSignals (signals n)
    have hnow : ((course p m signals n).withSignals (signals n)).plain.Hides p :=
      ⟨ih.registers, ih.stack, ih.branches⟩
    rw [course, ← machine_plain, plain_dispatch hcoherent]
    exact PlainMachine.hides_dispatch hnow

/-- What a dispatched instruction has to do with entries. -/
structure Shuns (p : Program) (m : Machine) (i : Instruction) : Prop where
  /-- No other instruction finds entries among the operands, or leaves any there. -/
  others : i ≠ .each → m.Tidy ∧ (m.step p i).machine.Tidy
  forward : m.resuming = false → m.Tidy
  /-- An iteration that resumes with entries goes on with one of them. -/
  resumed : Suspended m.stack.toList →
    i = .each ∧ (m.fault = none → ∃ m', m.execute p i = .next m')
  /-- Entries are no operand that an instruction complains of; only the type of a foreign value
  can have that name. -/
  blames : ∀ e expected, m.step p i = .fail e (.invalidOperand expected "entries") →
    expected = "array" ∧ ∃ a place handle, i = .append a ∧ m.register a = .ok place ∧
      m.registers[place]? = some (.value (.foreign handle)) ∧ handle.typeName = "entries"

/-- Suspended operands are not all usable. -/
theorem not_suspended_of_usable {stack : List Operand} (h : ∀ x ∈ stack, x.Usable) :
    ¬ Suspended stack := by
  rintro ⟨rest, below, rfl, -, -⟩
  exact h _ List.mem_cons_self

theorem machine_plainEffect (effect : Effect) :
    effect.plain.machine = effect.machine.plain := by
  cases effect <;> rfl

theorem shuns_of_plain (hcoherent : m.Coherent) (h : m.plain.Hides p)
    (hat : p.at? m.pc = some i) : m.Shuns p i where
  others := by
    intro hi
    have htidy : m.plain.Tidy := by
      rcases h.stack with hstack | ⟨-, hat', -⟩
      · exact ⟨hstack, h.registers⟩
      · exact absurd (Option.some.inj (hat.symm.trans hat')) hi
    have hstep := PlainMachine.tidy_step htidy p i
    rw [← plain_step hcoherent, machine_plainEffect] at hstep
    exact ⟨⟨htidy.stack, htidy.registers⟩, hstep.stack, hstep.registers⟩
  forward := by
    intro hresuming
    rcases h.stack with hstack | ⟨hset, -⟩
    · exact ⟨hstack, h.registers⟩
    · rw [show m.plain.resuming = m.resuming from rfl, hresuming] at hset
      cases hset
  resumed := by
    intro hsuspended
    rcases h.stack with hstack | ⟨-, hat', -⟩
    · exact absurd hsuspended (not_suspended_of_usable hstack)
    · obtain rfl := Option.some.inj (hat.symm.trans hat')
      refine ⟨rfl, fun hfault => ?_⟩
      obtain ⟨m', hnext⟩ := (PlainMachine.works_resumed h.registers hsuspended hfault).2
      rw [← plain_iterate hcoherent] at hnext
      show ∃ m', m.iterate = .next m'
      cases heffect : m.iterate with
      | next e => exact ⟨e, rfl⟩
      | jump | stop | yield | fail =>
        rw [heffect] at hnext
        cases hnext
  blames := by
    intro e expected hfail
    have hplain := plain_step hcoherent p i
    rw [hfail] at hplain
    rcases PlainMachine.step_cases h hat with hworks | ⟨ticks, hstop | ⟨reason, hcanceled⟩⟩
    · rw [← hplain] at hworks
      cases hworks.fault _ rfl rfl with
      | foreign hplace hholds hname => exact ⟨rfl, _, _, _, rfl, hplace, hholds, hname⟩
    · rw [hstop] at hplain
      cases congrArg PlainEffect.fault? hplain
    · rw [hcanceled] at hplain
      cases congrArg PlainEffect.fault? hplain

/-- In every state of every run the entries of an iteration lie where only that iteration finds
them, and it always finds one. No instruction complains of them: an append may, of a foreign value
whose type has that name. -/
theorem entries_hidden (p : Program) (idle : Machine) (settings : Settings) (input : Value)
    (interrupt : Option Interrupt) (signals : Nat → Signals) (n : Nat) :
    Hides p (course p (idle.load settings input interrupt) signals n) ∧
    ∀ i, p.at? (course p (idle.load settings input interrupt) signals n).pc = some i →
      Shuns p ((course p (idle.load settings input interrupt) signals n).withSignals (signals n))
        i := by
  have hstart := coherent_load idle settings input interrupt
  have hload : (idle.load settings input interrupt).plain.Hides p := by
    rw [plain_load]
    exact PlainMachine.hides_load p settings input interrupt
  have hplain : (course p (idle.load settings input interrupt) signals n).plain.Hides p :=
    plain_hides_course hstart hload n
  refine ⟨hides_of_plain hplain, ?_⟩
  intro i hat
  have hnow : ((course p (idle.load settings input interrupt) signals n).withSignals
      (signals n)).plain.Hides p := ⟨hplain.registers, hplain.stack, hplain.branches⟩
  exact shuns_of_plain ((coherent_course hstart p signals n).withSignals (signals n)) hnow hat

/-- The items of an array, one after the other. -/
def itemsProgram : Program where
  name := "items"
  code := #[.scope 0 0, .each, .ret]
  functions := #[]
  lines := #[]
  natives := {}

/-- After its first result the program is about to resume at the iteration, with the second item
still to be visited. -/
theorem entries_hidden_itemsProgram :
    itemsProgram.at? (course itemsProgram (load {} {} (.array #[.null, .bool true]) none)
      (fun _ => {}) 4).pc = some .each ∧
    (course itemsProgram (load {} {} (.array #[.null, .bool true]) none) (fun _ => {})
      4).stack.top? = some (.entries [(.int 1, .bool true)]) ∧
    Hides itemsProgram (course itemsProgram (load {} {} (.array #[.null, .bool true]) none)
      (fun _ => {}) 4) ∧
    Shuns itemsProgram ((course itemsProgram (load {} {} (.array #[.null, .bool true]) none)
      (fun _ => {}) 4).withSignals {}) .each := by
  obtain ⟨hhides, hshuns⟩ :=
    entries_hidden itemsProgram {} {} (.array #[.null, .bool true]) none (fun _ => {}) 4
  exact ⟨rfl, rfl, hhides, hshuns .each rfl⟩

/-- A foreign value goes into a variable, and then null is to be appended to it. -/
def foreignProgram : Program where
  name := "foreign"
  code := #[.scope 0 1, .push (.foreign ⟨"entries", 1⟩), .store ⟨0, 0⟩, .push .null,
    .append ⟨0, 0⟩, .ret]
  functions := #[]
  lines := #[]
  natives := {}

/-- The type of a foreign value can have the name by which faults call the entries of an
iteration, and then it is in a fault. -/
theorem append_blames_foreign :
    ∃ m', pull foreignProgram (load {} {} .null none) 5 =
      .done m' (some (.error (.invalidOperand "array" "entries"))) :=
  -- looking the variable up recurses on the depth of the activations
  ⟨_, by with_unfolding_all rfl⟩

end Machine
end QueryMachine
