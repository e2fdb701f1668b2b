import QueryMachine.Proofs.Instructions

/-!
# What a dispatch does

A dispatch of a coherent machine makes one of four moves, and `Move` says all there is to know
about each of them: it goes forward, it leaves one branch behind, it takes up the most recent
branch, or the run is over.

`Machine.course` is a whole run: the machines after every number of dispatches, whatever the
host does to the interrupts in between.
-/

namespace QueryMachine

open RewindStack

/-- The kind of branch that an instruction leaves behind. -/
def Instruction.branchKind? : Instruction → Option BranchKind
  | .fork _ => some .fork
  | .forkOpt _ => some .forkOpt
  | .forkLabel _ => some .forkLabel
  | .each => some .each
  | _ => none

/-- The machine that goes to the pending branches after an effect, if the continuation ends. -/
def Effect.ended? : Effect → Option Machine
  | .stop m => some m
  | .fail m fault => some (m.raise fault)
  | _ => none

/-- The machine that the run goes on with. -/
def Progress.machine : Progress → Machine
  | .running m => m
  | .done m _ => m

namespace Machine

variable {m m' : Machine} {b : BranchPoint} {older : List BranchPoint} {p : Program}

/-! ## Leaving a branch behind -/

/-- A coherent machine went on and left a branch behind. Its savepoints are those of the present
stacks; only the entries of an iteration lie on top of the operands while they are taken. -/
structure Branched (m : Machine) (b : BranchPoint) (m' : Machine) : Prop where
  coherent : m'.Coherent
  branches : m'.branches = b :: m.branches
  pc : b.pc = m.pc
  pathDepth : b.pathDepth = m.pathDepth
  savedScopes : b.scopes = m.scopes.savepoint
  savedPaths : b.paths = m.paths.savepoint
  savedStack : b.kind ≠ .each → b.stack = m.stack.savepoint
  stack : m.stack.Extends m'.stack
  stackFrozen : b.kind ≠ .each → m.stack.freeze.Extends m'.stack
  paths : m.paths.freeze.Extends m'.paths
  scopes : m.scopes.freeze.Extends m'.scopes
  offset_le : m.offset ≤ m'.offset
  interrupt : m'.interrupt = m.interrupt

/-- A branch point of the present machine can be gone back to. -/
theorem coherent_pushBranch (h : m.Coherent) (kind : BranchKind) :
    (m.pushBranch kind).Coherent where
  stack := h.stack.savepoint
  paths := h.paths.savepoint
  scopes := h.scopes.savepoint
  operands := h.operands
  registers := h.registers
  call := h.call
  saved := h.saved
  brackets := by
    show Bracketed (m.paths.freeze.chainAt m.paths.top) m.pathDepth
    rw [chainAt_freeze]
    exact h.brackets
  branchBrackets := by
    intro b hb
    show Bracketed (m.paths.freeze.chainAt b.paths.top) b.pathDepth
    rw [chainAt_freeze]
    cases hb with
    | head => exact h.brackets
    | tail _ hb => exact h.branchBrackets b hb

theorem branched_pushBranch (h : m.Coherent) (kind : BranchKind) :
    ∃ b, b.kind = kind ∧ Branched m b (m.pushBranch kind) := by
  refine ⟨_, rfl, coherent_pushBranch h kind, rfl, rfl, rfl, rfl, rfl, fun _ => rfl, .freeze _,
    fun _ => .refl _, .refl _, .refl _, Nat.le_refl _, rfl⟩

/-- Going forward after the branch was left behind changes nothing about it. -/
theorem Branched.trans (h : Branched m b m') {m'' : Machine} (h' : Forward m' m'') :
    Branched m b m'' where
  coherent := h'.coherent
  branches := h'.branches.trans h.branches
  pc := h.pc
  pathDepth := h.pathDepth
  savedScopes := h.savedScopes
  savedPaths := h.savedPaths
  savedStack := h.savedStack
  stack := h.stack.trans h'.stack
  stackFrozen := fun hk => (h.stackFrozen hk).trans h'.stack
  paths := h.paths.trans h'.paths
  scopes := h.scopes.trans h'.scopes
  offset_le := Nat.le_trans h.offset_le h'.offset_le
  interrupt := h'.interrupt.trans h.interrupt

/-- Only the operands may change before a branch that is left behind under entries. -/
theorem Branched.of_operands {t : OperandStack} (hext : m.stack.Extends t)
    (h : Branched { m with stack := t } b m') (hkind : b.kind = .each) : Branched m b m' where
  coherent := h.coherent
  branches := h.branches
  pc := h.pc
  pathDepth := h.pathDepth
  savedScopes := h.savedScopes
  savedPaths := h.savedPaths
  savedStack := fun hne => absurd hkind hne
  stack := hext.trans h.stack
  stackFrozen := fun hne => absurd hkind hne
  paths := h.paths
  scopes := h.scopes
  offset_le := h.offset_le
  interrupt := h.interrupt

/-! ## Iteration -/

theorem forward_visit (h : m.Coherent) (key v : Value) : Forward m (m.visit key v) := by
  unfold visit
  dsimp only
  split
  · rename_i htracks
    have hstep := forward_pushStep h htracks key v
    exact hstep.trans (forward_pushValue hstep.coherent v)
  · exact forward_pushValue h v

/-- The entries lie on the stack just long enough to be saved with the branch. -/
theorem suspendEntries_cases (h : m.Coherent) (rest : List (Value × Value)) :
    (rest = [] ∧ m.suspendEntries rest = m) ∨
      ∃ b, b.kind = .each ∧ Branched m b (m.suspendEntries rest) := by
  unfold suspendEntries
  split
  · rename_i hempty
    exact .inl ⟨List.isEmpty_iff.mp hempty, rfl⟩
  · right
    have hpush : Forward m (m.pushOperand (.entries rest)) := forward_pushOperand h trivial
    obtain ⟨b, hkind, hbranch⟩ := branched_pushBranch hpush.coherent .each
    have hb := hbranch.of_operands (m := m) hpush.stack hkind
    refine ⟨b, hkind, ?_⟩
    generalize (m.pushOperand (.entries rest)).pushBranch .each = branched at hb
    -- once they are saved, dropping the entries is a step forward
    apply hb.trans
    show Forward branched { branched with stack := branched.stack.drop }
    unfold RewindStack.drop
    cases hpop : branched.stack.pop? with
    | none => exact .of_memory hb.coherent rfl
    | some popped =>
      have hp : branched.popOperand = .ok (popped.1, { branched with stack := popped.2 }) := by
        rw [popOperand, hpop]
      exact (forward_popOperand hb.coherent hp).1

/-- An iteration goes forward, or leaves the remaining entries behind. -/
theorem iterate_cases (h : m.Coherent) :
    Forward m m.iterate.machine ∨
      ∃ b m', m.iterate = .next m' ∧ b.kind = .each ∧ Branched m b m' := by
  unfold iterate
  split
  · exact .inl (.refl h)
  · split
    · exact .inl (.refl h)
    · rename_i x popped hp
      obtain ⟨hpop, -⟩ := forward_popOperand h hp
      obtain ⟨t, -, rfl⟩ := popOperand_eq_ok hp
      split
      · exact .inl (.refl h)
      · exact .inl hpop
      · rename_i key v rest hentries
        have hresumed : Forward m { m with stack := t, resuming := false } :=
          hpop.trans (.of_memory hpop.coherent rfl)
        rcases suspendEntries_cases hresumed.coherent rest with ⟨-, heq⟩ | ⟨b, hkind, hb⟩
        · left
          rw [heq]
          exact hresumed.trans (forward_visit hresumed.coherent key v)
        · right
          -- the savepoint is of the operands without the iterated one, but under the entries
          refine ⟨b, _, rfl, hkind, ?_⟩
          have hvisit := hb.trans (forward_visit hb.coherent key v)
          exact { hvisit.of_operands (m := { m with resuming := false }) hpop.stack hkind with }

/-! ## One instruction -/

theorem fork_cases (h : m.Coherent) (target : Nat) :
    Forward m (m.fork target).machine ∨
      ∃ b m', m.fork target = .next m' ∧ b.kind = .fork ∧ Branched m b m' := by
  unfold fork
  split
  · obtain ⟨b, hkind, hb⟩ := branched_pushBranch h .fork
    exact .inr ⟨b, _, rfl, hkind, hb⟩
  · left
    split
    · exact .refl h
    · exact .of_memory h rfl

theorem forkOpt_cases (h : m.Coherent) (target : Nat) :
    Forward m (m.forkOpt target).machine ∨
      ∃ b m', m.forkOpt target = .next m' ∧ b.kind = .forkOpt ∧ Branched m b m' := by
  unfold forkOpt
  split
  · obtain ⟨b, hkind, hb⟩ := branched_pushBranch h .forkOpt
    exact .inr ⟨b, _, rfl, hkind, hb⟩
  · left
    split
    · exact .refl h
    · rename_i fault hfault
      split
      · have hcaught : Forward m { m with fault := none, resuming := false } := .of_memory h rfl
        exact hcaught.trans (forward_pushValue hcaught.coherent fault.caught)
      · exact .refl h

theorem forkLabel_cases (h : m.Coherent) (label : String) :
    Forward m (m.forkLabel label).machine ∨
      ∃ b m', m.forkLabel label = .next m' ∧ b.kind = .forkLabel ∧ Branched m b m' := by
  unfold forkLabel
  split
  · obtain ⟨b, hkind, hb⟩ := branched_pushBranch h .forkLabel
    exact .inr ⟨b, _, rfl, hkind, hb⟩
  · left
    split
    · exact .of_memory h rfl
    · exact .refl h

/-- An instruction goes forward, or leaves a branch of its kind behind. -/
theorem execute_cases (h : m.Coherent) (p : Program) (i : Instruction) :
    Forward m (m.execute p i).machine ∨
      ∃ b m', m.execute p i = .next m' ∧ i.branchKind? = some b.kind ∧ Branched m b m' := by
  have lift : ∀ {effect : Effect} {kind : BranchKind}, i.branchKind? = some kind →
      (Forward m effect.machine ∨
        ∃ b m', effect = .next m' ∧ b.kind = kind ∧ Branched m b m') →
      Forward m effect.machine ∨
        ∃ b m', effect = .next m' ∧ i.branchKind? = some b.kind ∧ Branched m b m' := by
    rintro effect kind hkind (hforward | ⟨b, m', heffect, rfl, hb⟩)
    · exact .inl hforward
    · exact .inr ⟨b, m', heffect, hkind, hb⟩
  cases i with
  | nop => exact .inl (.refl h)
  | push v => exact .inl (forward_pushValue h v)
  | pop => exact .inl (forward_dropTop h)
  | dup => exact .inl (forward_duplicate h)
  | swap => exact .inl (forward_exchange h)
  | const v => exact .inl (forward_replaceTop h v)
  | load a => exact .inl (forward_loadVariable h a)
  | store a => exact .inl (forward_storeVariable h a)
  | append a => exact .inl (forward_appendVariable h a)
  | object pairs => exact .inl (forward_buildObject h pairs)
  | fork target => exact lift rfl (fork_cases h target)
  | forkOpt target => exact lift rfl (forkOpt_cases h target)
  | forkLabel label => exact lift rfl (forkLabel_cases h label)
  | backtrack => exact .inl (.refl h)
  | each => exact lift rfl (iterate_cases h)
  | jump target => exact .inl (.refl h)
  | jumpIfNot target => exact .inl (forward_jumpUnless h target)
  | call target => exact .inl (forward_callAt h target)
  | callNative id argc => exact .inl (forward_callNative h p.natives id argc)
  | pushPc target => exact .inl (forward_pushClosure h target)
  | callPc => exact .inl (forward_callClosure h)
  | scope id slots => exact .inl (forward_enterScope h id slots p.length)
  | ret => exact .inl (forward_leaveScope h)
  | pathBegin => exact .inl (forward_openPath h)
  | pathEnd => exact .inl (forward_closePath h)

/-- An instruction is carried out with a new count of instructions, unless the interrupt has
tripped before. -/
theorem step_eq (m : Machine) (p : Program) (i : Instruction) :
    (∃ ticks, m.step p i = execute { m with ticks } p i) ∨
      ∃ reason, tripped? { m with ticks := 0 } = some reason ∧
        m.step p i = .fail { m with ticks := 0 } (.canceled reason) := by
  unfold step
  dsimp only
  split
  · split
    · rename_i reason htripped
      exact .inr ⟨reason, htripped, rfl⟩
    · exact .inl ⟨0, rfl⟩
  · exact .inl ⟨m.ticks + 1, rfl⟩

/-- An instruction that goes on has been carried out, whatever the interrupt says. -/
theorem execute_of_step {i : Instruction} (h : m.step p i = .next m') :
    ∃ ticks, execute { m with ticks } p i = .next m' := by
  rcases step_eq m p i with ⟨ticks, hstep⟩ | ⟨reason, -, hstep⟩
  · exact ⟨ticks, hstep.symm.trans h⟩
  · rw [hstep] at h
    cases h

/-- Looking at the interrupt first makes no difference to where an instruction leads. -/
theorem step_cases (h : m.Coherent) (p : Program) (i : Instruction) :
    Forward m (m.step p i).machine ∨
      ∃ b m', m.step p i = .next m' ∧ i.branchKind? = some b.kind ∧ Branched m b m' := by
  rcases step_eq m p i with ⟨ticks, hstep⟩ | ⟨reason, -, hstep⟩
  · have hticks : Forward m { m with ticks } := .of_memory h rfl
    rw [hstep]
    rcases execute_cases hticks.coherent p i with hforward | ⟨b, m', heffect, hkind, hb⟩
    · exact .inl (hticks.trans hforward)
    · exact .inr ⟨b, m', heffect, hkind, { hb with }⟩
  · rw [hstep]
    exact .inl (.of_memory h rfl)

/-! ## Taking a branch up -/

/-- The machine that goes to the pending branches in this dispatch, if a continuation ends. -/
def ending? (p : Program) (m : Machine) : Option Machine :=
  if m.finished then none
  else
    match p.at? m.pc with
    | none => some m
    | some i => (m.step p i).ended?

/-- A machine has finished, or has left the program, or is at one of its instructions. -/
theorem standing (p : Program) (m : Machine) :
    m.finished = true ∨ (m.finished = false ∧ p.at? m.pc = none) ∨
      ∃ i, m.finished = false ∧ p.at? m.pc = some i := by
  cases m.finished with
  | true => exact .inl rfl
  | false =>
    cases hat : p.at? m.pc with
    | none => exact .inr (.inl ⟨rfl, rfl⟩)
    | some i => exact .inr (.inr ⟨i, rfl, rfl⟩)

theorem dispatch_finished (h : m.finished = true) : dispatch p m = .done m none := by
  simp only [dispatch, h, if_true]

theorem dispatch_outside (hrunning : m.finished = false) (hat : p.at? m.pc = none) :
    dispatch p m = m.unwind := by
  simp only [dispatch, hrunning, hat, Bool.false_eq_true, if_false]

theorem dispatch_at (hrunning : m.finished = false) (hat : p.at? m.pc = some i) :
    dispatch p m = follow (m.step p i) := by
  simp only [dispatch, hrunning, hat, Bool.false_eq_true, if_false]

theorem ending?_finished (h : m.finished = true) : ending? p m = none := by
  simp only [ending?, h, if_true]

theorem running_of_ending? {e : Machine} (h : ending? p m = some e) : m.finished = false := by
  cases hfinished : m.finished with
  | false => rfl
  | true =>
    rw [ending?_finished hfinished] at h
    cases h

theorem ending?_outside (hrunning : m.finished = false) (hat : p.at? m.pc = none) :
    ending? p m = some m := by
  simp only [ending?, hrunning, hat, Bool.false_eq_true, if_false]

theorem ending?_at (hrunning : m.finished = false) (hat : p.at? m.pc = some i) :
    ending? p m = (m.step p i).ended? := by
  simp only [ending?, hrunning, hat, Bool.false_eq_true, if_false]

/-- An effect that ends the continuation is followed by going to the branches. -/
theorem follow_of_ended? {effect : Effect} {e : Machine} (h : effect.ended? = some e) :
    follow effect = e.unwind := by
  cases effect with
  | stop | fail =>
    obtain rfl := Option.some.inj h
    rfl
  | next | jump | yield => cases h

theorem dispatch_of_ending? {e : Machine} (h : ending? p m = some e) :
    dispatch p m = e.unwind := by
  rcases standing p m with hfinished | ⟨hrunning, hat⟩ | ⟨i, hrunning, hat⟩
  · rw [ending?_finished hfinished] at h
    cases h
  · rw [ending?_outside hrunning hat] at h
    obtain rfl := Option.some.inj h
    exact dispatch_outside hrunning hat
  · rw [ending?_at hrunning hat] at h
    rw [dispatch_at hrunning hat, follow_of_ended? h]

/-- An effect that does not end the continuation is followed by going on from its machine. -/
theorem follow_of_ongoing {effect : Effect} (h : effect.ended? = none) :
    ∃ pc resuming, (follow effect).machine = { effect.machine with pc, resuming } := by
  cases effect with
  | next m => exact ⟨m.pc + 1, m.resuming, rfl⟩
  | jump m target => exact ⟨target, m.resuming, rfl⟩
  | yield m v => exact ⟨m.pc, true, rfl⟩
  | stop | fail => cases h

/-- A run is over, or its continuation ends, or its instruction goes on. -/
theorem dispatch_cases (p : Program) (m : Machine) :
    dispatch p m = .done m none ∨ (∃ e, ending? p m = some e ∧ dispatch p m = e.unwind) ∨
      ∃ i pc resuming, m.finished = false ∧ p.at? m.pc = some i ∧
        (dispatch p m).machine = { (m.step p i).machine with pc, resuming } := by
  rcases standing p m with hfinished | ⟨hrunning, hat⟩ | ⟨i, hrunning, hat⟩
  · exact .inl (dispatch_finished hfinished)
  · exact .inr (.inl ⟨m, ending?_outside hrunning hat, dispatch_outside hrunning hat⟩)
  · right
    cases he : ending? p m with
    | some e => exact .inl ⟨e, rfl, dispatch_of_ending? he⟩
    | none =>
      rw [ending?_at hrunning hat] at he
      obtain ⟨pc, resuming, hnext⟩ := follow_of_ongoing he
      rw [← dispatch_at hrunning hat] at hnext
      exact .inr ⟨i, pc, resuming, hrunning, hat, hnext⟩

theorem unwind_cons (h : m.branches = b :: older) :
    m.unwind = .running ({ m with branches := older }.rewind b) := by
  unfold unwind
  rw [h]

theorem unwind_nil (h : m.branches = []) :
    m.unwind = .done { m with fault := none, finished := true } (m.fault.map .error) := by
  unfold unwind
  rw [h]

/-- A fault that is not fatal leaves the branches alone. -/
theorem forward_raise (h : m.Coherent) {fault : Fault} (hfatal : fault.isFatal = false) :
    Forward m (m.raise fault) := by
  refine .of_memory h ?_
  unfold raise
  rw [hfatal]
  rfl

/-- Without its branches a machine is as coherent as before. -/
theorem Coherent.withoutBranches (h : m.Coherent) (fault : Option Fault) :
    Coherent { m with fault, branches := [] } where
  stack := .nil h.stack.toLinked
  paths := .nil h.paths.toLinked
  scopes := .nil h.scopes.toLinked
  operands := h.operands
  registers := h.registers
  call := h.call
  saved := h.saved
  brackets := h.brackets
  branchBrackets := fun b hb => by cases hb

theorem Coherent.rewind (h : m.Coherent) (hb : m.branches = b :: older) :
    ({ m with branches := older }.rewind b).Coherent where
  stack := by
    have hstack := h.stack
    rw [hb] at hstack
    exact hstack.restore
  paths := by
    have hpaths := h.paths
    rw [hb] at hpaths
    exact hpaths.restore
  scopes := by
    have hscopes := h.scopes
    rw [hb] at hscopes
    exact hscopes.restore
  operands := h.operands
  registers := h.registers
  call := fun c hc => by cases hc
  saved := h.saved
  brackets := by
    show Bracketed (m.paths.restore b.paths).chain b.pathDepth
    rw [chain_restore]
    exact h.branchBrackets b (hb ▸ List.mem_cons_self)
  branchBrackets := by
    intro b' hb'
    show Bracketed ((m.paths.restore b.paths).chainAt b'.paths.top) b'.pathDepth
    rw [chainAt_restore]
    exact h.branchBrackets b' (hb ▸ List.mem_cons_of_mem b hb')

/-- A continuation that ends goes to the branches as they are, or a fatal fault has discarded
them. -/
theorem ending?_eq_some (h : m.Coherent) {e : Machine} (he : ending? p m = some e) :
    Forward m e ∨ e.branches = [] ∧ e.Coherent ∧ e.interrupt = m.interrupt := by
  rcases standing p m with hfinished | ⟨hrunning, hat⟩ | ⟨i, hrunning, hat⟩
  · rw [ending?_finished hfinished] at he
    cases he
  · rw [ending?_outside hrunning hat] at he
    obtain rfl := Option.some.inj he
    exact .inl (.refl h)
  · rw [ending?_at hrunning hat] at he
    rcases step_cases h p i with hforward | ⟨b, m', hnext, -⟩
    · cases heffect : m.step p i with
      | stop e' =>
        rw [heffect] at he hforward
        obtain rfl := Option.some.inj he
        exact .inl hforward
      | fail e' fault =>
        rw [heffect] at he hforward
        obtain rfl := Option.some.inj he
        -- only a fatal fault discards the branches
        cases hfatal : fault.isFatal with
        | false => exact .inl (hforward.trans (forward_raise hforward.coherent hfatal))
        | true =>
          right
          unfold raise
          rw [hfatal]
          exact ⟨rfl, hforward.coherent.withoutBranches (some fault), hforward.interrupt⟩
      | next | jump | yield =>
        rw [heffect] at he
        cases he
    · rw [hnext] at he
      cases he

/-! ## The four moves -/

/-- Where a dispatch leads. -/
inductive Move (p : Program) (m : Machine) : Machine → Prop where
  | forward {m' : Machine} (h : Forward m m') : Move p m m'
  | branch {m' : Machine} {i : Instruction} {b : BranchPoint} (hat : p.at? m.pc = some i)
      (hkind : i.branchKind? = some b.kind) (h : Branched m b m') : Move p m m'
  | takeUp {e : Machine} {b : BranchPoint} {older : List BranchPoint}
      (hend : ending? p m = some e) (h : Forward m e) (hb : e.branches = b :: older) :
      Move p m ({ e with branches := older }.rewind b)
  | ended {m' : Machine} (h : m'.Coherent) (hb : m'.branches = []) (hf : m'.finished = true)
      (hi : m'.interrupt = m.interrupt) : Move p m m'

theorem move_unwind {e : Machine} (h : m.Coherent) (he : ending? p m = some e) :
    Move p m e.unwind.machine := by
  have hended : ∀ {e : Machine}, e.Coherent → e.branches = [] → e.interrupt = m.interrupt →
      Move p m e.unwind.machine := by
    intro e hcoherent hnil hinterrupt
    rw [unwind_nil hnil]
    exact .ended { hcoherent with } hnil rfl hinterrupt
  rcases ending?_eq_some h he with hforward | ⟨hnil, hcoherent, hinterrupt⟩
  · cases hb : e.branches with
    | nil => exact hended hforward.coherent hb hforward.interrupt
    | cons b older =>
      rw [unwind_cons hb]
      exact .takeUp he hforward hb
  · exact hended hcoherent hnil hinterrupt

/-- A coherent machine makes one of the four moves. -/
theorem move_dispatch (h : m.Coherent) (p : Program) : Move p m (dispatch p m).machine := by
  rcases dispatch_cases p m with hover | ⟨e, he, hunwind⟩ | ⟨i, pc, resuming, -, hat, hnext⟩
  · rw [hover]
    exact .forward (.refl h)
  · rw [hunwind]
    exact move_unwind h he
  · rw [hnext]
    rcases step_cases h p i with hforward | ⟨b, m', hstep, hkind, hb⟩
    · exact .forward (hforward.trans (.of_memory hforward.coherent rfl))
    · rw [hstep]
      exact .branch hat hkind (hb.trans (.of_memory hb.coherent rfl))

theorem Move.coherent (h : Move p m m') : m'.Coherent := by
  cases h with
  | forward h => exact h.coherent
  | branch hat hkind h => exact h.coherent
  | takeUp hend h hb => exact h.coherent.rewind hb
  | ended h hb hf hi => exact h

theorem Move.interrupt (h : Move p m m') : m'.interrupt = m.interrupt := by
  cases h with
  | forward h => exact h.interrupt
  | branch hat hkind h => exact h.interrupt
  | takeUp hend h hb => exact h.interrupt
  | ended h hb hf hi => exact hi

/-! ## Runs -/

/-- A machine that is ready for a run is coherent. -/
theorem coherent_load (m : Machine) (settings : Settings) (input : Value)
    (interrupt : Option Interrupt) : (m.load settings input interrupt).Coherent where
  stack := Keeps.empty.push (Operand.value input)
  paths := .empty
  scopes := .empty
  operands := by
    refine Holds.push ?_ Keeps.empty.toLinked trivial
    intro i cell hc
    simp [RewindStack.empty] at hc
  registers := by
    intro i x hx
    change (Array.replicate settings.initialRegisters default)[i]? = some x at hx
    rw [Array.getElem?_replicate] at hx
    split at hx
    · rw [← Option.some.inj hx]
      trivial
    · cases hx
  call := fun c hc => by cases hc
  saved := fun i cell hc => by simp [load, reset, RewindStack.empty] at hc
  brackets := .empty
  branchBrackets := fun b hb => by cases hb

/-- The machine as it sees the host's signals. -/
@[reducible] def withSignals (m : Machine) (signals : Signals) : Machine :=
  { m with signals }

/-- A run: the machine after every number of dispatches, starting from `m`. Before each
dispatch the host may change the signals. A run that is over stays as it is. -/
def course (p : Program) (m : Machine) (signals : Nat → Signals) : Nat → Machine
  | 0 => m
  | n + 1 => (dispatch p ((course p m signals n).withSignals (signals n))).machine

theorem Coherent.withSignals (h : m.Coherent) (signals : Signals) :
    (m.withSignals signals).Coherent :=
  { h with }

theorem coherent_course (h : m.Coherent) (p : Program) (signals : Nat → Signals) (n : Nat) :
    (course p m signals n).Coherent := by
  induction n with
  | zero => exact h
  | succ n ih => exact (move_dispatch (ih.withSignals (signals n)) p).coherent

/-- Every machine of a run but the first comes from the one before it by a move. -/
theorem move_course (h : m.Coherent) (p : Program) (signals : Nat → Signals) (n : Nat) :
    Move p ((course p m signals n).withSignals (signals n)) (course p m signals (n + 1)) :=
  move_dispatch ((coherent_course h p signals n).withSignals (signals n)) p

/-- A run that is over stays so. -/
theorem finished_course {signals : Nat → Signals} {n k : Nat}
    (h : (course p m signals n).finished = true) (hle : n ≤ k) :
    (course p m signals k).finished = true := by
  induction hle with
  | refl => exact h
  | @step k hle ih =>
    have hover : ((course p m signals k).withSignals (signals k)).finished = true := ih
    rw [course, dispatch_finished hover]
    exact ih

end Machine
end QueryMachine
