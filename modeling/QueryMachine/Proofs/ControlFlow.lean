import QueryMachine.Proofs.PlainMachine
import QueryMachine.Proofs.RewindStack

/-!
# Where an instruction leads

Most instructions only work on operands, registers and the recorded path. What the run looks at to
know where to go on is the position, the activations, the pending call and the branches, and `Flow`
says all that an instruction does to these.

* `Undiverted`: none of them has changed;
* `turnsLeft`: how often the instruction can still be taken up, with these operands: a branch has
  fewer turns left than the instruction that leaves it behind;
* `flow_execute`: every instruction but the call of a closure is of one of the kinds of `Flow`.
-/

namespace QueryMachine

/-! ## Turns -/

/-- How many entries there are to visit below the top of the operands. -/
def entriesLeft : List Operand → Nat
  | .entries rest :: _ => rest.length
  | .value v :: _ => (v.keyed?.getD []).length
  | _ => 0

/-- How many turns an instruction has left: an iteration one for each entry, and any other
instruction one as long as it does not resume. -/
def Instruction.turnsLeft (resuming : Bool) (stack : List Operand) : Instruction → Nat
  | .each => entriesLeft stack
  | _ => if resuming then 0 else 1

theorem Instruction.turnsLeft_of_ne {i : Instruction} (hi : i ≠ .each) (resuming : Bool)
    (stack : List Operand) : i.turnsLeft resuming stack = if resuming then 0 else 1 := by
  cases i with
  | each => exact absurd rfl hi
  | _ => rfl

/-- Whether the instruction leads to higher positions only, when it is at this one. What a closure
leads to is not known. -/
def Instruction.leadsOn (pc : Nat) : Instruction → Bool
  | .fork t | .forkOpt t | .jump t | .jumpIfNot t | .call t => pc < t
  | .callPc => false
  | _ => true

namespace PlainMachine

variable {p : Program} {m m' m'' : PlainMachine} {i : Instruction} {v : Value} {x : Operand}

/-! ## Popping -/

theorem popOperand_eq_ok (hp : m.popOperand = .ok (x, m')) :
    ∃ below, m.stack = x :: below ∧ m' = { m with stack := below } := by
  unfold popOperand at hp
  split at hp
  · rename_i x' below hstack
    obtain ⟨rfl, rfl⟩ := Prod.mk.inj (Except.ok.inj hp)
    exact ⟨below, hstack, rfl⟩
  · cases hp

theorem popValue_eq_ok (hp : m.popValue = .ok (v, m')) : m.popOperand = .ok (.value v, m') := by
  unfold popValue at hp
  split at hp
  · cases hp
  · rename_i x' popped hx
    cases x' with
    | value w =>
      obtain ⟨rfl, rfl⟩ := Prod.mk.inj (Except.ok.inj hp)
      exact hx
    | closure pc scope => cases hp
    | entries rest => cases hp

/-! ## Instructions that go on -/

/-- The run goes on from where it was. -/
structure Undiverted (m m' : PlainMachine) : Prop where
  pc : m'.pc = m.pc
  scopes : m'.scopes = m.scopes
  pendingCall : m'.pendingCall = m.pendingCall
  branches : m'.branches = m.branches

namespace Undiverted

theorem refl (m : PlainMachine) : Undiverted m m :=
  ⟨rfl, rfl, rfl, rfl⟩

theorem trans (h : Undiverted m m') (h' : Undiverted m' m'') : Undiverted m m'' :=
  ⟨h'.pc.trans h.pc, h'.scopes.trans h.scopes, h'.pendingCall.trans h.pendingCall,
    h'.branches.trans h.branches⟩

theorem popOperand (hp : m.popOperand = .ok (x, m')) : Undiverted m m' := by
  obtain ⟨below, -, rfl⟩ := popOperand_eq_ok hp
  exact ⟨rfl, rfl, rfl, rfl⟩

theorem popValue (hp : m.popValue = .ok (v, m')) : Undiverted m m' :=
  popOperand (popValue_eq_ok hp)

theorem popValues {count : Nat} {values : List Value} (hp : m.popValues count = .ok (values, m')) :
    Undiverted m m' := by
  induction count generalizing m values with
  | zero =>
    obtain ⟨-, rfl⟩ := Prod.mk.inj (Except.ok.inj hp)
    exact refl m
  | succ count ih =>
    rw [PlainMachine.popValues] at hp
    split at hp
    · cases hp
    · rename_i hv
      split at hp
      · cases hp
      · rename_i hrest
        obtain ⟨-, rfl⟩ := Prod.mk.inj (Except.ok.inj hp)
        exact (popValue hv).trans (ih hrest)

theorem popPairs {count : Nat} {following pairs : List (String × Value)}
    (hp : m.popPairs following count = .ok (pairs, m')) : Undiverted m m' := by
  induction count generalizing m following with
  | zero =>
    obtain ⟨-, rfl⟩ := Prod.mk.inj (Except.ok.inj hp)
    exact refl m
  | succ count ih =>
    rw [PlainMachine.popPairs] at hp
    split at hp
    · cases hp
    · rename_i hv
      split at hp
      · cases hp
      · rename_i hkey
        exact ((popValue hv).trans (popValue hkey)).trans (ih hp)
      · cases hp

theorem popCall {argc : Nat} {input : Value} {args : List Value}
    (hp : m.popCall argc = .ok (input, args, m')) : Undiverted m m' := by
  unfold PlainMachine.popCall at hp
  split at hp
  · cases hp
  · rename_i hv
    split at hp
    · cases hp
    · rename_i hvalues
      rw [Except.ok.injEq, Prod.mk.injEq, Prod.mk.injEq] at hp
      obtain ⟨-, -, rfl⟩ := hp
      exact (popValue hv).trans (popValues hvalues)

theorem tripFlag (m : PlainMachine) (table : NativeTable) (id : NativeId) (argc : Nat) :
    Undiverted m (m.tripFlag table id argc) := by
  unfold PlainMachine.tripFlag
  split <;> exact ⟨rfl, rfl, rfl, rfl⟩

theorem recordStep {role : Role} {args : List Value} {output : Value}
    (hr : m.recordStep role args output = .ok m') : Undiverted m m' := by
  unfold PlainMachine.recordStep at hr
  split at hr
  · obtain rfl := Except.ok.inj hr
    exact refl m
  · split at hr
    · split at hr
      · obtain rfl := Except.ok.inj hr
        exact ⟨rfl, rfl, rfl, rfl⟩
      · cases hr
    · obtain rfl := Except.ok.inj hr
      exact refl m

theorem visit (m : PlainMachine) (key v : Value) : Undiverted m (m.visit key v) := by
  unfold PlainMachine.visit
  dsimp only
  split <;> exact ⟨rfl, rfl, rfl, rfl⟩

end Undiverted

/-! ## The kinds of instructions -/

/-- The continuation ends, and leaves the activations and the branches to those that come after. -/
structure Ends (m m' : PlainMachine) : Prop where
  cells : m'.scopes.cells = m.scopes.cells
  branches : m'.branches = m.branches

theorem Undiverted.ends (h : Undiverted m m') : Ends m m' :=
  ⟨by rw [h.scopes], h.branches⟩

/-- The branch `b` is left behind, with fewer turns than the instruction has. -/
structure Suspends (m : PlainMachine) (i : Instruction) (b : PlainBranch) (m' : PlainMachine) :
    Prop where
  pc : m'.pc = m.pc
  scopes : m'.scopes = m.scopes.freeze
  pendingCall : m'.pendingCall = m.pendingCall
  branches : m'.branches = b :: m.branches
  branchPc : b.pc = m.pc
  savedScopes : b.scopes = m.scopes.savepoint
  fewer : i.turnsLeft true b.stack < i.turnsLeft m.resuming m.stack

/-- The activation `left`, which lies in the cell `place`, is left for the one of its caller. -/
structure Returns (m m' : PlainMachine) (place : Nat) (left : Cell Activation) : Prop where
  top : m.scopes.top = some place
  cell : m.scopes.cells[place]? = some left
  scopes : m'.scopes = m.scopes.setTop left.value.saved
  pendingCall : m'.pendingCall = m.pendingCall
  branches : m'.branches = m.branches
  pc : m'.pc = m.pc
  forward : m.resuming = false

/-- What an instruction does to the run. -/
inductive Flow (p : Program) (m : PlainMachine) (i : Instruction) : PlainEffect → Prop where
  | next {m' : PlainMachine} (h : Undiverted m m') : Flow p m i (.next m')
  | jump {m' : PlainMachine} {target : Nat} (hon : ∀ pc, i.leadsOn pc = true → pc < target)
      (h : Undiverted m m') : Flow p m i (.jump m' target)
  | suspend {m' : PlainMachine} {b : PlainBranch} (h : Suspends m i b m') : Flow p m i (.next m')
  | call (target : Nat) (hi : i = .call target) : Flow p m i (m.callAt target)
  | enter (id : ScopeId) (slots : Nat) (hi : i = .scope id slots) :
      Flow p m i (m.enterScope id slots p.length)
  | ret {m' : PlainMachine} {place : Nat} {left : Cell Activation} (hi : i = .ret)
      (h : Returns m m' place left) : Flow p m i (.jump m' (left.value.returnPc + 1))
  | yield {m' : PlainMachine} {place : Nat} {left : Cell Activation} {v : Value} (hi : i = .ret)
      (h : Returns m m' place left) : Flow p m i (.yield m' v)
  | stop {m' : PlainMachine} (h : Ends m m') : Flow p m i (.stop m')
  | fail {m' : PlainMachine} {fault : Fault} (h : Ends m m') : Flow p m i (.fail m' fault)

namespace Flow

/-- Nothing has been done before the fault. -/
theorem failed {fault : Fault} : Flow p m i (.fail m fault) :=
  .fail ⟨rfl, rfl⟩

/-! ### Operands and variables -/

theorem dropTop : Flow p m i m.dropTop := by
  unfold PlainMachine.dropTop
  split
  · exact failed
  · rename_i hp
    exact .next (.popOperand hp)

theorem duplicate : Flow p m i m.duplicate := by
  unfold PlainMachine.duplicate
  split
  · exact failed
  · exact .next ⟨rfl, rfl, rfl, rfl⟩

theorem exchange : Flow p m i m.exchange := by
  unfold PlainMachine.exchange
  split
  · exact failed
  · rename_i hx
    split
    · exact failed
    · rename_i hy
      exact .next { (Undiverted.popOperand hx).trans (.popOperand hy) with }

theorem replaceTop (v : Value) : Flow p m i (m.replaceTop v) := by
  unfold PlainMachine.replaceTop
  split
  · exact failed
  · rename_i hp
    exact .next { Undiverted.popOperand hp with }

theorem buildObject (pairs : Nat) : Flow p m i (m.buildObject pairs) := by
  unfold PlainMachine.buildObject
  split
  · exact failed
  · rename_i hp
    exact .next { Undiverted.popPairs hp with }

theorem loadVariable (a : Address) : Flow p m i (m.loadVariable a) := by
  unfold PlainMachine.loadVariable
  split
  · exact failed
  · exact .next ⟨rfl, rfl, rfl, rfl⟩

theorem storeVariable (a : Address) : Flow p m i (m.storeVariable a) := by
  unfold PlainMachine.storeVariable
  split
  · exact failed
  · split
    · exact failed
    · rename_i hp
      exact .next { Undiverted.popOperand hp with }

theorem appendVariable (a : Address) : Flow p m i (m.appendVariable a) := by
  unfold PlainMachine.appendVariable
  split
  · exact failed
  · split
    · exact failed
    · rename_i hp
      split
      · exact .next { Undiverted.popValue hp with }
      · exact failed
      · exact failed

/-! ### Branches -/

theorem jumpUnless {target : Nat} (hi : i = .jumpIfNot target) :
    Flow p m i (m.jumpUnless target) := by
  unfold PlainMachine.jumpUnless
  split
  · exact failed
  · rename_i hp
    split
    · exact .next (.popValue hp)
    · refine .jump ?_ (.popValue hp)
      intro pc hon
      rw [hi] at hon
      exact of_decide_eq_true hon

/-- A branch that is left behind by an instruction that goes forward has no turn left. -/
theorem pushBranch {kind : BranchKind} (hforward : m.resuming = false) (hi : i ≠ .each) :
    Flow p m i (.next (m.pushBranch kind)) := by
  refine .suspend (b := ⟨m.pc, kind, m.stack, m.paths, m.scopes.savepoint⟩)
    ⟨rfl, rfl, rfl, rfl, rfl, rfl, ?_⟩
  rw [hforward, Instruction.turnsLeft_of_ne hi, Instruction.turnsLeft_of_ne hi]
  exact Nat.zero_lt_one

theorem fork {target : Nat} (hi : i = .fork target) : Flow p m i (m.fork target) := by
  unfold PlainMachine.fork
  split
  · rename_i hforward
    exact pushBranch (by simpa using hforward) (by simp [hi])
  · split
    · exact .stop ⟨rfl, rfl⟩
    · refine .jump ?_ ⟨rfl, rfl, rfl, rfl⟩
      intro pc hon
      rw [hi] at hon
      exact of_decide_eq_true hon

theorem forkOpt {target : Nat} (hi : i = .forkOpt target) : Flow p m i (m.forkOpt target) := by
  unfold PlainMachine.forkOpt
  split
  · rename_i hforward
    exact pushBranch (by simpa using hforward) (by simp [hi])
  · split
    · exact .stop ⟨rfl, rfl⟩
    · split
      · refine .jump ?_ ⟨rfl, rfl, rfl, rfl⟩
        intro pc hon
        rw [hi] at hon
        exact of_decide_eq_true hon
      · exact .stop ⟨rfl, rfl⟩

theorem forkLabel {label : String} (hi : i = .forkLabel label) :
    Flow p m i (m.forkLabel label) := by
  unfold PlainMachine.forkLabel
  split
  · rename_i hforward
    exact pushBranch (by simpa using hforward) (by simp [hi])
  · split <;> exact .stop ⟨rfl, rfl⟩

/-! ### Iteration -/

/-- The entries that an operand offers are those that are left on it. -/
theorem length_entriesOf {entries : List (Value × Value)} (h : m.entriesOf x = .ok entries)
    (below : List Operand) : entriesLeft (x :: below) = entries.length := by
  cases x with
  | closure pc scope => cases h
  | entries rest =>
    obtain rfl := Except.ok.inj h
    rfl
  | value v =>
    simp only [entriesOf] at h
    split at h
    · cases h
    · split at h
      · rename_i found hfound
        obtain rfl := Except.ok.inj h
        rw [entriesLeft, hfound]
        rfl
      · cases h

theorem iterate : Flow p m .each m.iterate := by
  unfold PlainMachine.iterate
  split
  · exact .stop ⟨rfl, rfl⟩
  · split
    · exact failed
    · rename_i x popped hp
      have hpop := Undiverted.popOperand hp
      split
      · exact failed
      · exact .stop hpop.ends
      · rename_i key v rest hentries
        have hvisit := Undiverted.visit ((PlainMachine.suspendEntries
          { popped with resuming := false } rest)) key v
        by_cases hlast : rest.isEmpty = true
        · rw [PlainMachine.suspendEntries, if_pos hlast] at hvisit ⊢
          exact .next (hpop.trans { hvisit with })
        · rw [PlainMachine.suspendEntries, if_neg hlast] at hvisit ⊢
          -- the entries that remain lie on the copy of the branch
          refine .suspend (b := ⟨popped.pc, .each, .entries rest :: popped.stack, popped.paths,
            popped.scopes.savepoint⟩) ?_
          refine ⟨hvisit.pc.trans hpop.pc, ?_, hvisit.pendingCall.trans hpop.pendingCall, ?_,
            hpop.pc, ?_, ?_⟩
          · exact hvisit.scopes.trans (congrArg RewindStack.freeze hpop.scopes)
          · exact hvisit.branches.trans (congrArg _ hpop.branches)
          · exact congrArg RewindStack.savepoint hpop.scopes
          · obtain ⟨below, hstack, rfl⟩ := popOperand_eq_ok hp
            rw [hstack]
            show rest.length < entriesLeft (x :: below)
            rw [length_entriesOf hentries]
            exact Nat.lt_succ_self _

/-! ### Calls and returns -/

theorem leaveScope : Flow p m .ret m.leaveScope := by
  unfold PlainMachine.leaveScope
  split
  · exact .stop ⟨rfl, rfl⟩
  · rename_i hforward
    have hresuming : m.resuming = false := by
      cases hset : m.resuming with
      | false => rfl
      | true => simp [hset] at hforward
    split
    · exact failed
    · rename_i activation below hpop
      obtain ⟨cell, hcell, rfl, rfl⟩ := RewindStack.pop?_eq_some hpop
      obtain ⟨place, htop, hget⟩ := RewindStack.cell?_eq_some hcell
      dsimp only
      split
      · split
        · exact .fail ⟨rfl, rfl⟩
        · rename_i hp
          have hvalue := Undiverted.popValue hp
          exact .yield rfl ⟨htop, hget, rfl, hvalue.pendingCall, hvalue.branches, hvalue.pc,
            hresuming⟩
      · exact .ret rfl ⟨htop, hget, rfl, rfl, rfl, rfl, hresuming⟩

/-! ### Paths and native calls -/

theorem openPath : Flow p m i m.openPath := by
  unfold PlainMachine.openPath
  split
  · exact failed
  · split
    · exact failed
    · exact .next ⟨rfl, rfl, rfl, rfl⟩

theorem closePath : Flow p m i m.closePath := by
  unfold PlainMachine.closePath
  split
  · exact failed
  · split
    · exact failed
    · rename_i hp
      split
      · exact failed
      · exact .next { Undiverted.popValue hp with }

theorem callNative (table : NativeTable) (id : NativeId) (argc : Nat) :
    Flow p m i (m.callNative table id argc) := by
  unfold PlainMachine.callNative
  split
  · exact failed
  · rename_i input args popped hp
    have hcalled := (Undiverted.popCall hp).trans (.tripFlag popped table id argc)
    dsimp only
    split
    · exact .fail hcalled.ends
    · split
      · exact .fail hcalled.ends
      · rename_i hr
        exact .next { hcalled.trans (.recordStep hr) with }

end Flow

/-- Every instruction but the call of a closure. -/
theorem flow_execute (m : PlainMachine) (p : Program) (hi : i ≠ .callPc) :
    Flow p m i (m.execute p i) := by
  cases i with
  | nop => exact .next (.refl m)
  | push | pushPc => exact .next ⟨rfl, rfl, rfl, rfl⟩
  | pop => exact .dropTop
  | dup => exact .duplicate
  | swap => exact .exchange
  | const v => exact .replaceTop v
  | load a => exact .loadVariable a
  | store a => exact .storeVariable a
  | append a => exact .appendVariable a
  | object pairs => exact .buildObject pairs
  | fork target => exact .fork rfl
  | forkOpt target => exact .forkOpt rfl
  | forkLabel label => exact .forkLabel rfl
  | backtrack => exact .stop ⟨rfl, rfl⟩
  | each => exact .iterate
  | jump target => exact .jump (fun pc hon => of_decide_eq_true hon) (.refl m)
  | jumpIfNot target => exact .jumpUnless rfl
  | call target => exact .call target rfl
  | callNative id argc => exact .callNative p.natives id argc
  | callPc => exact absurd rfl hi
  | scope id slots => exact .enter id slots rfl
  | ret => exact .leaveScope
  | pathBegin => exact .openPath
  | pathEnd => exact .closePath

/-- An instruction is carried out with a new count of instructions, unless the interrupt has
tripped before. -/
theorem step_eq (m : PlainMachine) (p : Program) (i : Instruction) :
    (∃ ticks, m.step p i = execute { m with ticks } p i) ∨
      ∃ reason, m.step p i = .fail { m with ticks := 0 } (.canceled reason) := by
  unfold step
  dsimp only
  split
  · split
    · rename_i reason _
      exact .inr ⟨reason, rfl⟩
    · exact .inl ⟨0, rfl⟩
  · exact .inl ⟨m.ticks + 1, rfl⟩

end PlainMachine
end QueryMachine
