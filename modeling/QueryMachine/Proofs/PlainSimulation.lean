import QueryMachine.Session
import QueryMachine.Proofs.PlainMachine
import QueryMachine.Proofs.Dispatch

/-!
# Sharing is unobservable

`Machine.plain` forgets how a machine shares its cells: it copies both stacks, and those that
every branch would bring back, into lists. One lemma for every instruction says that a coherent
machine and its plain copy do the same, and so they give the same items for ever.

Why the copies of the branches stay the same while the machine works is `Keeps.chainAt_eq`:
nothing that a savepoint relies on is ever written.
-/

namespace QueryMachine

open RewindStack

/-! ## Forgetting the cells -/

/-- A record without the cell of the path around it. -/
def PathRecord.plain : PathRecord → PlainRecord
  | .start v _ => .start v
  | .step component v => .step component v

/-- A branch with copies of what its savepoints lead to. -/
def BranchPoint.plain (stack : OperandStack) (paths : RewindStack PathRecord) (b : BranchPoint) :
    PlainBranch :=
  ⟨b.pc, b.kind, stack.listAt b.stack.top, (paths.listAt b.paths.top).map (·.plain), b.scopes⟩

/-- A machine with copies in the place of shared cells. -/
def Machine.plain (m : Machine) : PlainMachine where
  pc := m.pc
  stack := m.stack.toList
  paths := m.paths.toList.map (·.plain)
  scopes := m.scopes
  registers := m.registers
  offset := m.offset
  branches := m.branches.map (·.plain m.stack m.paths)
  resuming := m.resuming
  fault := m.fault
  pendingCall := m.pendingCall
  finished := m.finished
  ticks := m.ticks
  interrupt := m.interrupt
  signals := m.signals
  settings := m.settings

def Effect.plain : Effect → PlainEffect
  | .next m => .next m.plain
  | .jump m target => .jump m.plain target
  | .stop m => .stop m.plain
  | .yield m v => .yield m.plain v
  | .fail m fault => .fail m.plain fault

def Progress.plain : Progress → PlainProgress
  | .running m => .running m.plain
  | .done m item => .done m.plain item

/-- The components of a path whose records are all steps, put before those above. -/
theorem cutPath_append {above : List PathRecord} {v : Value} {rest : List PlainRecord}
    (hsteps : ∀ r ∈ above, ∃ component w, r = .step component w) (found : List Value) :
    cutPath found (above.map (·.plain) ++ .start v :: rest) =
      some ((above.reverse.filterMap PathRecord.component?) ++ found, rest) := by
  induction above generalizing found with
  | nil => rfl
  | cons r above ih =>
    obtain ⟨component, w, rfl⟩ := hsteps r List.mem_cons_self
    rw [List.map_cons, List.cons_append, PathRecord.plain, cutPath,
      ih fun r hr => hsteps r (List.mem_cons_of_mem _ hr)]
    simp [PathRecord.component?]

namespace Machine

variable {m m' : Machine} {x : Operand} {v : Value} {b : BranchPoint} {older : List BranchPoint}
  {p : Program}

/-! ## The copies of the branches -/

/-- Going on with both stacks changes no copy. -/
theorem plain_branches (h : m.Coherent) {t : OperandStack} {u : RewindStack PathRecord}
    (hstack : m.stack.Extends t) (hpaths : m.paths.Extends u) :
    m.branches.map (·.plain t u) = m.branches.map (·.plain m.stack m.paths) := by
  apply List.map_congr_left
  intro b hb
  rw [BranchPoint.plain, BranchPoint.plain, listAt, listAt, listAt, listAt,
    h.stack.chainAt_eq hstack (List.mem_map_of_mem hb),
    h.paths.chainAt_eq hpaths (List.mem_map_of_mem hb)]

theorem plain_withStack (h : m.Coherent) {t : OperandStack} (hext : m.stack.Extends t) :
    plain { m with stack := t } = { m.plain with stack := t.toList } := by
  simp only [plain, plain_branches h hext (.refl m.paths)]

theorem plain_withPaths (h : m.Coherent) {u : RewindStack PathRecord}
    (hext : m.paths.Extends u) (depth : Option Nat) :
    plain { m with paths := u, pathDepth := depth } =
      { m.plain with paths := u.toList.map (·.plain) } := by
  simp only [plain, plain_branches h (.refl m.stack) hext]

/-! ## Pushing and popping -/

theorem plain_pushOperand (h : m.Coherent) (x : Operand) :
    (m.pushOperand x).plain = m.plain.pushOperand x := by
  have hlinked := h.stack.toLinked
  refine (plain_withStack h (.push hlinked x)).trans ?_
  rw [toList_push hlinked]
  rfl

theorem plain_pushValue (h : m.Coherent) (v : Value) :
    (m.pushValue v).plain = m.plain.pushValue v :=
  plain_pushOperand h (.value v)

theorem plain_popOperand (h : m.Coherent) :
    m.plain.popOperand = m.popOperand.map fun popped => (popped.1, popped.2.plain) := by
  rw [PlainMachine.popOperand, popOperand,
    show m.plain.stack = m.stack.toList from rfl]
  rcases pop?_cases h.stack.toLinked with ⟨hnone, -, hchain⟩ | ⟨i, x, t, hsome, -, hchain⟩
  · rw [hnone, toList, hchain]
    rfl
  · rw [hsome, toList, hchain]
    show Except.ok (x, { m.plain with stack := t.toList }) = .ok (x, plain { m with stack := t })
    rw [plain_withStack h (.of_pop? hsome)]

theorem plain_popValue (h : m.Coherent) :
    m.plain.popValue = m.popValue.map fun popped => (popped.1, popped.2.plain) := by
  rw [PlainMachine.popValue, popValue, plain_popOperand h]
  cases m.popOperand with
  | error fault => rfl
  | ok popped =>
    dsimp only [Except.map]
    cases popped.1.toValue with
    | error fault => rfl
    | ok v => rfl

theorem plain_popValues (h : m.Coherent) (count : Nat) :
    m.plain.popValues count =
      (m.popValues count).map fun popped => (popped.1, popped.2.plain) := by
  induction count generalizing m with
  | zero => rfl
  | succ count ih =>
    rw [PlainMachine.popValues, popValues, plain_popValue h]
    cases hv : m.popValue with
    | error fault => rfl
    | ok popped =>
      dsimp only [Except.map]
      rw [ih (forward_popValue h hv).coherent]
      cases popped.2.popValues count with
      | error fault => rfl
      | ok rest => rfl

theorem plain_popPairs (h : m.Coherent) (following : List (String × Value)) (count : Nat) :
    m.plain.popPairs following count =
      (m.popPairs following count).map fun popped => (popped.1, popped.2.plain) := by
  induction count generalizing m following with
  | zero => rfl
  | succ count ih =>
    rw [PlainMachine.popPairs, popPairs, plain_popValue h]
    cases hv : m.popValue with
    | error fault => rfl
    | ok once =>
      have honce := (forward_popValue h hv).coherent
      dsimp only [Except.map]
      rw [plain_popValue honce]
      cases hkey : once.2.popValue with
      | error fault => rfl
      | ok twice =>
        obtain ⟨key, twice⟩ := twice
        have htwice := (forward_popValue honce hkey).coherent
        dsimp only [Except.map]
        cases key with
        | string key => exact ih htwice ((key, once.1) :: following)
        | _ => rfl

/-! ## Operand instructions -/

theorem plain_dropTop (h : m.Coherent) : m.dropTop.plain = m.plain.dropTop := by
  rw [dropTop, PlainMachine.dropTop, plain_popOperand h]
  cases m.popOperand with
  | error fault => rfl
  | ok popped => rfl

theorem plain_top? (h : m.Coherent) : m.stack.top? = m.plain.stack.head? :=
  top?_eq_head? h.stack.toLinked

theorem plain_duplicate (h : m.Coherent) : m.duplicate.plain = m.plain.duplicate := by
  rw [duplicate, PlainMachine.duplicate, plain_top? h]
  cases m.plain.stack.head? with
  | none => rfl
  | some x => exact congrArg PlainEffect.next (plain_pushOperand h x)

theorem plain_exchange (h : m.Coherent) : m.exchange.plain = m.plain.exchange := by
  rw [exchange, PlainMachine.exchange, plain_popOperand h]
  cases hx : m.popOperand with
  | error fault => rfl
  | ok once =>
    obtain ⟨x, once⟩ := once
    obtain ⟨honce, hxs⟩ := forward_popOperand h hx
    dsimp only [Except.map]
    rw [plain_popOperand honce.coherent]
    cases hy : once.popOperand with
    | error fault => rfl
    | ok twice =>
      obtain ⟨y, twice⟩ := twice
      have htwice := (forward_popOperand honce.coherent hy).1
      have hpush := forward_pushOperand htwice.coherent (hxs.mono htwice.scopes.size_le)
      dsimp only [Except.map, Effect.plain]
      rw [plain_pushOperand hpush.coherent, plain_pushOperand htwice.coherent]

theorem plain_replaceTop (h : m.Coherent) (v : Value) :
    (m.replaceTop v).plain = m.plain.replaceTop v := by
  rw [replaceTop, PlainMachine.replaceTop, plain_popOperand h]
  cases hp : m.popOperand with
  | error fault => rfl
  | ok popped =>
    have hpop := (forward_popOperand h hp).1
    exact congrArg PlainEffect.next (plain_pushValue hpop.coherent v)

theorem plain_buildObject (h : m.Coherent) (pairs : Nat) :
    (m.buildObject pairs).plain = m.plain.buildObject pairs := by
  rw [buildObject, PlainMachine.buildObject, plain_popPairs h]
  cases hp : m.popPairs [] pairs with
  | error fault => rfl
  | ok popped =>
    exact congrArg PlainEffect.next (plain_pushValue (forward_popPairs h hp).coherent _)

theorem plain_jumpUnless (h : m.Coherent) (target : Nat) :
    (m.jumpUnless target).plain = m.plain.jumpUnless target := by
  rw [jumpUnless, PlainMachine.jumpUnless, plain_popValue h]
  cases m.popValue with
  | error fault => rfl
  | ok popped =>
    dsimp only [Except.map]
    split <;> rfl

/-! ## Scopes, calls and variables -/

theorem plain_callClosure (h : m.Coherent) : m.callClosure.plain = m.plain.callClosure := by
  rw [callClosure, PlainMachine.callClosure, plain_popOperand h]
  cases m.popOperand with
  | error fault => rfl
  | ok popped =>
    obtain ⟨x, popped⟩ := popped
    cases x <;> rfl

theorem plain_leaveScope (h : m.Coherent) : m.leaveScope.plain = m.plain.leaveScope := by
  rw [leaveScope, PlainMachine.leaveScope, show m.plain.scopes = m.scopes from rfl,
    plain_popValue h]
  by_cases hbacktracks : m.resuming || m.fault.isSome
  · rw [if_pos hbacktracks]
    exact (if_pos hbacktracks).symm
  · rw [if_neg hbacktracks]
    refine Eq.trans ?_ (if_neg hbacktracks).symm
    cases m.scopes.pop? with
    | none => rfl
    | some popped =>
      dsimp only
      split
      · cases m.popValue with
        | error fault => rfl
        | ok popped => rfl
      · rfl

theorem plain_loadVariable (h : m.Coherent) (a : Address) :
    (m.loadVariable a).plain = m.plain.loadVariable a := by
  rw [loadVariable, PlainMachine.loadVariable, show m.plain.register a = m.register a from rfl]
  cases m.register a with
  | error fault => rfl
  | ok place => exact congrArg PlainEffect.next (plain_pushOperand h _)

theorem plain_storeVariable (h : m.Coherent) (a : Address) :
    (m.storeVariable a).plain = m.plain.storeVariable a := by
  rw [storeVariable, PlainMachine.storeVariable, show m.plain.register a = m.register a from rfl]
  cases m.register a with
  | error fault => rfl
  | ok place =>
    dsimp only
    rw [plain_popOperand h]
    cases m.popOperand with
    | error fault => rfl
    | ok popped => rfl

theorem plain_appendVariable (h : m.Coherent) (a : Address) :
    (m.appendVariable a).plain = m.plain.appendVariable a := by
  rw [appendVariable, PlainMachine.appendVariable, show m.plain.register a = m.register a from rfl]
  cases m.register a with
  | error fault => rfl
  | ok place =>
    dsimp only
    rw [plain_popValue h]
    cases m.popValue with
    | error fault => rfl
    | ok popped =>
      obtain ⟨v, popped⟩ := popped
      dsimp only [Except.map]
      rw [show popped.plain.registers = popped.registers from rfl]
      cases popped.registers.getD place default with
      | value w => cases w <;> rfl
      | closure pc scope => rfl
      | entries rest => rfl

/-! ## Recorded paths -/

theorem plain_tracksPath (h : m.Coherent) : m.plain.tracksPath = m.tracksPath := by
  rw [PlainMachine.tracksPath, tracksPath, isEmpty_eq h.paths.toLinked]
  show (!(m.paths.toList.map (·.plain)).isEmpty) = _
  rw [List.isEmpty_map]

theorem plain_isReached (h : m.Coherent) (v : Value) : m.plain.isReached v = m.isReached v := by
  rw [PlainMachine.isReached, isReached, reached?, top?_eq_head? h.paths.toLinked]
  show (((m.paths.toList.map (·.plain)).head?).map PlainRecord.value).any _ = _
  rw [List.head?_map, Option.map_map]
  congr 2
  funext r
  cases r <;> rfl

theorem plain_pushRecord (h : m.Coherent) (r : PathRecord) (depth : Option Nat) :
    plain { m with paths := m.paths.push r, pathDepth := depth } =
      { m.plain with paths := r.plain :: m.plain.paths } := by
  have hlinked := h.paths.toLinked
  rw [plain_withPaths h (.push hlinked r), toList_push hlinked]
  rfl

theorem plain_openPath (h : m.Coherent) : m.openPath.plain = m.plain.openPath := by
  rw [openPath, PlainMachine.openPath, plain_top? h]
  cases m.plain.stack.head? with
  | none => rfl
  | some x =>
    dsimp only
    cases x.toValue with
    | error fault => rfl
    | ok v => exact congrArg PlainEffect.next (plain_pushRecord h (.start v m.pathDepth) _)

theorem plain_closePath (h : m.Coherent) : m.closePath.plain = m.plain.closePath := by
  rw [closePath, PlainMachine.closePath]
  cases hdepth : m.pathDepth with
  | none =>
    -- no path is open, so there is no record
    have hnil : m.plain.paths = [] := by
      have hbrackets := h.brackets
      rw [hdepth] at hbrackets
      show (m.paths.chain.map (·.2)).map (·.plain) = []
      generalize m.paths.chain = chain at hbrackets
      cases hbrackets
      rfl
    rw [hnil]
    rfl
  | some start =>
    obtain ⟨above, w, outer, paths, hchain, hsteps, hcut, hlinked, hext, hbrackets⟩ :=
      innermost_path h hdepth
    -- the records above the innermost start are the steps of its path
    have hplain : cutPath [] m.plain.paths =
        some ((m.paths.since start).filterMap PathRecord.component?,
          paths.toList.map (·.plain)) := by
      show cutPath [] ((m.paths.chain.map (·.2)).map (·.plain)) = _
      rw [since_eq h.paths.toLinked hchain, hchain, List.map_append, List.map_append]
      refine (cutPath_append ?_ []).trans ?_
      · intro r hr
        obtain ⟨cell, hcell, rfl⟩ := List.mem_map.mp hr
        exact hsteps cell hcell
      · rw [List.append_nil]
        rfl
    rw [hplain]
    dsimp only
    rw [plain_popValue h]
    cases hp : m.popValue with
    | error fault => rfl
    | ok popped =>
      obtain ⟨v, popped⟩ := popped
      have hpop := (forward_popValue h hp).coherent
      obtain ⟨t, -, rfl⟩ := popOperand_eq_ok (popValue_eq_ok hp)
      dsimp only [Except.map]
      rw [plain_isReached hpop]
      split
      · rfl
      · rw [hcut]
        have hclosed := (Forward.withPaths hpop hlinked hext hbrackets).coherent
        dsimp only [Effect.plain]
        rw [plain_pushValue hclosed, plain_withPaths hpop hext]

/-- What a native call records, it records in the copy too. -/
theorem plain_recordStep (h : m.Coherent) (role : Role) (args : List Value) (output : Value) :
    m.plain.recordStep role args output = (m.recordStep role args output).map (·.plain) := by
  rw [PlainMachine.recordStep, recordStep, plain_tracksPath h]
  generalize role.subject?.bind (args[·]?) = subject
  generalize role.component? args = component
  split
  · rfl
  · cases subject with
    | none => rfl
    | some subject =>
      cases component with
      | none => rfl
      | some component =>
        dsimp only
        rw [plain_isReached h]
        split
        · exact congrArg Except.ok (plain_pushRecord h (.step component output) m.pathDepth).symm
        · rfl

/-! ## Native calls -/

theorem plain_popCall (h : m.Coherent) (argc : Nat) :
    m.plain.popCall argc =
      (m.popCall argc).map fun popped => (popped.1, popped.2.1, popped.2.2.plain) := by
  rw [PlainMachine.popCall, popCall, plain_popValue h]
  cases hv : m.popValue with
  | error fault => rfl
  | ok once =>
    dsimp only [Except.map]
    rw [plain_popValues (forward_popValue h hv).coherent]
    cases once.2.popValues argc with
    | error fault => rfl
    | ok rest => rfl

theorem plain_tripFlag (m : Machine) (table : NativeTable) (id : NativeId) (argc : Nat) :
    (m.tripFlag table id argc).plain = m.plain.tripFlag table id argc := by
  rw [tripFlag, PlainMachine.tripFlag]
  cases table.resolve id argc with
  | error failure => rfl
  | ok native => rfl

theorem plain_callNative (h : m.Coherent) (table : NativeTable) (id : NativeId) (argc : Nat) :
    (m.callNative table id argc).plain = m.plain.callNative table id argc := by
  rw [callNative, PlainMachine.callNative, plain_popCall h]
  cases hp : m.popCall argc with
  | error fault => rfl
  | ok popped =>
    obtain ⟨input, args, popped⟩ := popped
    have hpop := (popCall_forward h hp).coherent
    have hcalled := (forward_tripFlag hpop table id argc).coherent
    dsimp only [Except.map]
    rw [← plain_tripFlag]
    cases table.call id input args with
    | error failure => rfl
    | ok output =>
      dsimp only
      rw [plain_recordStep hcalled]
      cases hr : (popped.tripFlag table id argc).recordStep (table.roleOf id) args output with
      | error fault => rfl
      | ok recorded =>
        have hrecorded := (recordStep_forward hcalled hr).coherent
        exact congrArg PlainEffect.next (plain_pushValue hrecorded output)

/-! ## Branching -/

theorem plain_pushBranch (m : Machine) (kind : BranchKind) :
    (m.pushBranch kind).plain = m.plain.pushBranch kind := by
  have hfreeze : BranchPoint.plain m.stack.freeze m.paths.freeze =
      BranchPoint.plain m.stack m.paths := by
    funext b
    rw [BranchPoint.plain, BranchPoint.plain, listAt_freeze, listAt_freeze]
  simp only [plain, pushBranch, PlainMachine.pushBranch, toList_eq_listAt, List.map_cons, hfreeze,
    listAt_freeze]
  rfl

theorem plain_rewind (m : Machine) (b : BranchPoint) (older : List BranchPoint) :
    ({ m with branches := older }.rewind b).plain =
      PlainMachine.rewind { m.plain with branches := older.map (·.plain m.stack m.paths) }
        (b.plain m.stack m.paths) := by
  have hrestore : BranchPoint.plain (m.stack.restore b.stack) (m.paths.restore b.paths) =
      BranchPoint.plain m.stack m.paths := by
    funext b'
    rw [BranchPoint.plain, BranchPoint.plain, listAt_restore, listAt_restore]
  simp only [plain, rewind, PlainMachine.rewind, toList_eq_listAt, hrestore, listAt_restore]
  rfl

theorem plain_raise (m : Machine) (fault : Fault) :
    (m.raise fault).plain = m.plain.raise fault := by
  rw [raise, PlainMachine.raise]
  cases fault.isFatal <;> rfl

theorem plain_fork (m : Machine) (target : Nat) : (m.fork target).plain = m.plain.fork target := by
  rw [fork, PlainMachine.fork, ← plain_pushBranch]
  show _ = if !m.resuming then _ else if m.fault.isSome then _ else _
  split
  · rfl
  · split <;> rfl

theorem plain_forkOpt (h : m.Coherent) (target : Nat) :
    (m.forkOpt target).plain = m.plain.forkOpt target := by
  rw [forkOpt, PlainMachine.forkOpt, ← plain_pushBranch,
    show m.plain.resuming = m.resuming from rfl, show m.plain.fault = m.fault from rfl]
  split
  · rfl
  · cases m.fault with
    | none => rfl
    | some fault =>
      dsimp only
      split
      · have hcaught : Coherent { m with fault := none, resuming := false } := { h with }
        exact congrArg (PlainEffect.jump · target) (plain_pushValue hcaught fault.caught)
      · rfl

theorem plain_forkLabel (m : Machine) (label : String) :
    (m.forkLabel label).plain = m.plain.forkLabel label := by
  rw [forkLabel, PlainMachine.forkLabel, ← plain_pushBranch]
  show _ = if !m.resuming then _ else if m.isLeaving label then _ else _
  split
  · rfl
  · split <;> rfl

/-! ## Iteration -/

theorem plain_entriesOf (h : m.Coherent) (x : Operand) : m.plain.entriesOf x = m.entriesOf x := by
  cases x with
  | value v =>
    rw [PlainMachine.entriesOf, plain_tracksPath h, plain_isReached h]
    rfl
  | closure pc scope => rfl
  | entries rest => rfl

theorem plain_suspendEntries (h : m.Coherent) (rest : List (Value × Value)) :
    (m.suspendEntries rest).plain = m.plain.suspendEntries rest := by
  rw [suspendEntries, PlainMachine.suspendEntries]
  split
  · rfl
  · have hpush : Forward m (m.pushOperand (.entries rest)) := forward_pushOperand h trivial
    have hbranched := coherent_pushBranch hpush.coherent .each
    have hplain : ((m.pushOperand (.entries rest)).pushBranch .each).plain =
        (m.plain.pushOperand (.entries rest)).pushBranch .each := by
      rw [plain_pushBranch, plain_pushOperand h]
    -- the entries are dropped again; in the copy only the branch has them
    refine (plain_withStack hbranched (.drop _)).trans ?_
    have hstack : ((m.pushOperand (.entries rest)).pushBranch .each).stack.toList =
        .entries rest :: m.plain.stack :=
      congrArg PlainMachine.stack hplain
    rw [toList_drop hbranched.stack.toLinked, hstack, hplain]
    rfl

theorem plain_visit (h : m.Coherent) (key v : Value) :
    (m.visit key v).plain = m.plain.visit key v := by
  rw [visit, PlainMachine.visit, plain_tracksPath h]
  split
  · rename_i htracks
    rw [plain_pushValue (forward_pushStep h htracks key v).coherent,
      plain_pushRecord h (.step key v) m.pathDepth]
    rfl
  · exact plain_pushValue h v

theorem plain_iterate (h : m.Coherent) : m.iterate.plain = m.plain.iterate := by
  rw [iterate, PlainMachine.iterate, plain_popOperand h]
  show _ = if m.fault.isSome then _ else _
  split
  · rfl
  · cases hp : m.popOperand with
    | error fault => rfl
    | ok popped =>
      obtain ⟨x, popped⟩ := popped
      have hpop := (forward_popOperand h hp).1.coherent
      dsimp only [Except.map]
      rw [plain_entriesOf hpop]
      cases popped.entriesOf x with
      | error fault => rfl
      | ok entries =>
        cases entries with
        | nil => rfl
        | cons entry rest =>
          obtain ⟨key, v⟩ := entry
          have hresumed : Coherent { popped with resuming := false } := { hpop with }
          -- coherence is only needed to push the step and the entry
          have hsuspended : (suspendEntries { popped with resuming := false } rest).Coherent := by
            rcases suspendEntries_cases hresumed rest with ⟨-, heq⟩ | ⟨b, -, hb⟩
            · rwa [heq]
            · exact hb.coherent
          refine congrArg PlainEffect.next ((plain_visit hsuspended key v).trans ?_)
          rw [plain_suspendEntries hresumed]
          rfl

/-! ## Running -/

/-- An instruction does the same to the copy. -/
theorem plain_execute (h : m.Coherent) (p : Program) (i : Instruction) :
    (m.execute p i).plain = m.plain.execute p i := by
  cases i with
  | nop | backtrack | jump | call | scope => rfl
  | push v => exact congrArg PlainEffect.next (plain_pushValue h v)
  | pop => exact plain_dropTop h
  | dup => exact plain_duplicate h
  | swap => exact plain_exchange h
  | const v => exact plain_replaceTop h v
  | load a => exact plain_loadVariable h a
  | store a => exact plain_storeVariable h a
  | append a => exact plain_appendVariable h a
  | object pairs => exact plain_buildObject h pairs
  | fork target => exact plain_fork m target
  | forkOpt target => exact plain_forkOpt h target
  | forkLabel label => exact plain_forkLabel m label
  | each => exact plain_iterate h
  | jumpIfNot target => exact plain_jumpUnless h target
  | callNative id argc => exact plain_callNative h p.natives id argc
  | pushPc target => exact congrArg PlainEffect.next (plain_pushOperand h _)
  | callPc => exact plain_callClosure h
  | ret => exact plain_leaveScope h
  | pathBegin => exact plain_openPath h
  | pathEnd => exact plain_closePath h

theorem plain_step (h : m.Coherent) (p : Program) (i : Instruction) :
    (m.step p i).plain = m.plain.step p i := by
  have hticks : ∀ ticks : Nat, (execute { m with ticks } p i).plain =
      PlainMachine.execute { m.plain with ticks } p i :=
    fun ticks => plain_execute (m := { m with ticks }) { h with } p i
  have hpolls : PlainMachine.pollsAt { m.plain with ticks := m.plain.ticks + 1 } i =
      pollsAt { m with ticks := m.ticks + 1 } i := rfl
  have htripped : PlainMachine.tripped? { m.plain with ticks := 0 } =
      tripped? { m with ticks := 0 } := rfl
  rw [step, PlainMachine.step]
  dsimp only
  rw [hpolls]
  split
  · rw [htripped]
    cases tripped? { m with ticks := 0 } with
    | some reason => rfl
    | none => exact hticks 0
  · exact hticks (m.ticks + 1)

theorem plain_unwind (m : Machine) : m.unwind.plain = m.plain.unwind := by
  have hbranches : m.plain.branches = m.branches.map (·.plain m.stack m.paths) := rfl
  cases hb : m.branches with
  | nil =>
    rw [hb] at hbranches
    rw [unwind_nil hb, PlainMachine.unwind_nil hbranches]
    rfl
  | cons b older =>
    rw [hb] at hbranches
    rw [unwind_cons hb, PlainMachine.unwind_cons hbranches]
    exact congrArg PlainProgress.running (plain_rewind m b older)

theorem plain_follow (effect : Effect) :
    (follow effect).plain = PlainMachine.follow effect.plain := by
  cases effect with
  | next m | jump m target | yield m v => rfl
  | stop m => exact plain_unwind m
  | fail m fault => exact (plain_unwind (m.raise fault)).trans (congrArg _ (plain_raise m fault))

theorem machine_plain (progress : Progress) :
    progress.plain.machine = progress.machine.plain := by
  cases progress <;> rfl

/-- A dispatch of the copy is the copy of a dispatch. -/
theorem plain_dispatch (h : m.Coherent) (p : Program) :
    (dispatch p m).plain = PlainMachine.dispatch p m.plain := by
  rcases standing p m with hfinished | ⟨hrunning, hat⟩ | ⟨i, hrunning, hat⟩
  · rw [dispatch_finished hfinished, PlainMachine.dispatch_finished hfinished]
    rfl
  · rw [dispatch_outside hrunning hat, PlainMachine.dispatch_outside hrunning hat]
    exact plain_unwind m
  · rw [dispatch_at hrunning hat, PlainMachine.dispatch_at hrunning hat, plain_follow,
      plain_step h]

theorem plain_pull (h : m.Coherent) (p : Program) (fuel : Nat) :
    (pull p m fuel).plain = PlainMachine.pull p m.plain fuel := by
  induction fuel generalizing m with
  | zero => rfl
  | succ fuel ih =>
    have hnext := (move_dispatch h p).coherent
    rw [pull, PlainMachine.pull, ← plain_dispatch h]
    cases hd : dispatch p m with
    | done m' item => rfl
    | running m' =>
      rw [hd] at hnext
      exact ih hnext

/-- What every dispatch keeps, a pull keeps. -/
theorem pull_keeps {P : Machine → Prop} (hkept : ∀ m, P m → P (dispatch p m).machine) (h : P m)
    (fuel : Nat) : P (pull p m fuel).machine := by
  induction fuel generalizing m with
  | zero => exact h
  | succ fuel ih =>
    have hnext := hkept m h
    rw [pull]
    cases hd : dispatch p m with
    | done m' item =>
      rw [hd] at hnext
      exact hnext
    | running m' =>
      rw [hd] at hnext
      exact ih hnext

theorem coherent_pull (h : m.Coherent) (p : Program) (fuel : Nat) :
    (pull p m fuel).machine.Coherent :=
  pull_keeps (P := Coherent) (fun _ h => (move_dispatch h p).coherent) h fuel

end Machine

/-! ## The activations of the copy -/

/-- The activations can be followed, those of the branches as well. -/
structure PlainMachine.Rooted (m : PlainMachine) : Prop where
  scopes : m.scopes.Keeps (m.branches.map (·.scopes))
  saved : m.scopes.Holds fun i activation => level activation.saved ≤ i
  call : ∀ call, m.pendingCall = some call → level call.caller ≤ m.scopes.cells.size

/-- The branches go back to what is frozen. -/
theorem PlainMachine.Rooted.level_le {m : PlainMachine} (h : m.Rooted) {b : PlainBranch}
    (hb : b ∈ m.branches) : level b.scopes.top ≤ m.scopes.nextCell := by
  have hreach := h.scopes.guards.reach_le (List.mem_map_of_mem hb)
  rw [reach] at hreach
  rw [nextCell_eq]
  omega

namespace Machine

theorem Coherent.rooted {m : Machine} (h : m.Coherent) : m.plain.Rooted where
  scopes := by
    show m.scopes.Keeps ((m.branches.map (·.plain m.stack m.paths)).map (·.scopes))
    rw [List.map_map]
    exact h.scopes
  saved := h.saved
  call := h.call

/-! ## What the host sees -/

/-- What a host gets that pulls again and again, each time with the signals of the moment and
a number of dispatches that it can afford. -/
def turns (p : Program) (m : Machine) : List (Signals × Nat) → List Turn
  | [] => []
  | (signals, fuel) :: later =>
    match pull p { m with signals } fuel with
    | .running m => .paused :: turns p m later
    | .done m item => .gave item :: turns p m later

end Machine

/-- What a host gets from the machine without sharing. -/
def PlainMachine.turns (p : Program) (m : PlainMachine) : List (Signals × Nat) → List Turn
  | [] => []
  | (signals, fuel) :: later =>
    match PlainMachine.pull p { m with signals } fuel with
    | .running m => .paused :: PlainMachine.turns p m later
    | .done m item => .gave item :: PlainMachine.turns p m later

namespace Machine

theorem turns_plain {m : Machine} (h : m.Coherent) (p : Program) (script : List (Signals × Nat)) :
    turns p m script = PlainMachine.turns p m.plain script := by
  induction script generalizing m with
  | nil => rfl
  | cons turn later ih =>
    obtain ⟨signals, fuel⟩ := turn
    have hstart := h.withSignals signals
    have hnext := coherent_pull hstart p fuel
    have hplain := plain_pull hstart p fuel
    show (match pull p (m.withSignals signals) fuel with
      | .running m => Turn.paused :: turns p m later
      | .done m item => .gave item :: turns p m later) =
      match PlainMachine.pull p (m.withSignals signals).plain fuel with
      | .running m => .paused :: PlainMachine.turns p m later
      | .done m item => .gave item :: PlainMachine.turns p m later
    rw [← hplain]
    cases hp : pull p (m.withSignals signals) fuel with
    | running m' =>
      rw [hp] at hnext
      exact congrArg (Turn.paused :: ·) (ih hnext)
    | done m' item =>
      rw [hp] at hnext
      exact congrArg (Turn.gave item :: ·) (ih hnext)

/-- Both machines start alike. -/
theorem plain_load (idle : Machine) (settings : Settings) (input : Value)
    (interrupt : Option Interrupt) :
    (idle.load settings input interrupt).plain = .load settings input interrupt := by
  have hstack : (idle.load settings input interrupt).stack.toList = [.value input] :=
    toList_push Keeps.empty.toLinked _
  rw [plain, hstack]
  rfl

/-- Whatever a program does, and however a host pulls, the shared cells of the two stacks cannot
be told from copies: the run gives the same items as the machine without sharing. -/
theorem sharing_unobservable (p : Program) (idle : Machine) (settings : Settings) (input : Value)
    (interrupt : Option Interrupt) (script : List (Signals × Nat)) :
    turns p (idle.load settings input interrupt) script =
      PlainMachine.turns p (.load settings input interrupt) script := by
  rw [← plain_load idle]
  exact turns_plain (coherent_load idle settings input interrupt) p script

end Machine
end QueryMachine
