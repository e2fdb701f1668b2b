import QueryMachine.Proofs.PathInvariant
import QueryMachine.Proofs.PathBrackets
import QueryMachine.Proofs.PlainSimulation

/-!
# Paths are sound

The components that closing a path answers with lead from the value that the path was opened at
to the value that it ended in.

* `sound_execute` and `sound_resume` are the two steps of the invariant: an instruction that runs
  forward, and one that takes up a branch;
* `sound_course`: so it holds in every state of a run. The run is that of a machine with shared
  cells; `plain_dispatch` makes it one of the machine without sharing;
* `replay_navigated`: the components of a path can be followed again.
-/

namespace QueryMachine
namespace PlainMachine

variable {p : Program} {m : PlainMachine} {i : Instruction}

/-! ## Branching -/

/-- A branch that goes forward again finds what it left. -/
theorem Steady.pushBranch (h : Steady p m) {kind : BranchKind} (hat : p.at? m.pc = some i)
    (hresume : i.isResumePoint = true) (hne : i ≠ .each) : Steady p (m.pushBranch kind) where
  registers := h.registers
  fault := h.fault
  branches := by
    intro b hb
    rcases List.mem_cons.mp hb with rfl | hb
    · exact .plain hat hresume hne h.paths h.stack
    · exact h.branches b hb
  forward := h.forward
  stack := h.stack
  paths := h.paths

theorem Stored.raise (h : Stored p m) {fault : Fault} (hfault : fault.caught.WellFormed) :
    Stored p (m.raise fault) where
  registers := h.registers
  fault := by
    intro raised hraised
    rw [← Option.some.inj hraised]
    exact hfault
  branches := by
    intro b hb
    change b ∈ (if fault.isFatal then [] else m.branches) at hb
    split at hb
    · cases hb
    · exact h.branches b hb

/-- A continuation that ends takes up a branch that waits, or the run is over. -/
theorem sound_unwind (h : Stored p m) : Sound p m.unwind.machine := by
  unfold unwind
  split
  · rename_i b older hbranches
    have hstored : Stored p { m with branches := older } := by
      refine { h with branches := fun b' hb' => h.branches b' ?_ }
      rw [hbranches]
      exact List.mem_cons_of_mem b hb'
    refine .waiting { hstored with } rfl (h.branches b ?_)
    rw [hbranches]
    exact List.mem_cons_self
  · exact .ended rfl

theorem sound_follow {effect : PlainEffect} (h : effect.Sound p) :
    Sound p (follow effect).machine := by
  cases effect with
  | next m => exact .forward { (h : Steady p m) with }
  | jump m target => exact .forward { (h : Steady p m) with }
  | stop m => exact sound_unwind h
  | yield m v =>
    obtain ⟨hsteady, hret⟩ := h
    exact .waiting { hsteady.toStored with } rfl
      (.plain hret rfl (by simp) hsteady.paths hsteady.stack)
  | fail m fault => exact sound_unwind (h.1.raise h.2)

theorem sound_fork (h : Steady p m) {target : Nat} (hat : p.at? m.pc = some (.fork target)) :
    (m.fork target).Sound p := by
  unfold fork
  rw [if_pos (by simp [h.forward])]
  exact h.pushBranch hat rfl (by simp)

theorem sound_forkOpt (h : Steady p m) {target : Nat}
    (hat : p.at? m.pc = some (.forkOpt target)) : (m.forkOpt target).Sound p := by
  unfold forkOpt
  rw [if_pos (by simp [h.forward])]
  exact h.pushBranch hat rfl (by simp)

theorem sound_forkLabel (h : Steady p m) {label : String}
    (hat : p.at? m.pc = some (.forkLabel label)) : (m.forkLabel label).Sound p := by
  unfold forkLabel
  rw [if_pos (by simp [h.forward])]
  exact h.pushBranch hat rfl (by simp)

/-! ## Iteration -/

/-- Going into the first entry, with the others left on a branch. -/
theorem steady_visit (h : Steady p m) (hat : p.at? m.pc = some .each) {key v : Value}
    {rest : List (Value × Value)} (hfits : Fits m.paths ((key, v) :: rest)) :
    Steady p ((m.suspendEntries rest).visit key v) := by
  have hsuspended : Steady p (m.suspendEntries rest) ∧ (m.suspendEntries rest).paths = m.paths := by
    unfold suspendEntries
    split
    · exact ⟨h, rfl⟩
    · have hrest : Fits m.paths rest :=
        ⟨fun entry hentry => hfits.form entry (List.mem_cons_of_mem _ hentry),
          fun r hr entry hentry => hfits.lead r hr entry (List.mem_cons_of_mem _ hentry)⟩
      refine ⟨{ h with branches := ?_ }, rfl⟩
      intro b hb
      rcases List.mem_cons.mp hb with rfl | hb
      · exact .each hat h.paths rfl h.stack hrest
      · exact h.branches b hb
  obtain ⟨hsteady, hpaths⟩ := hsuspended
  generalize m.suspendEntries rest = suspended at hsteady hpaths
  have hform := hfits.form (key, v) List.mem_cons_self
  unfold visit
  dsimp only
  cases hrecords : m.paths with
  | nil =>
    rw [if_neg (by simp [tracksPath, hpaths, hrecords])]
    exact hsteady.pushValue hform.2
  | cons r records =>
    rw [if_pos (by simp [tracksPath, hpaths, hrecords])]
    have hnavigated := hsteady.paths
    rw [hpaths, hrecords] at hnavigated
    have hlead := hfits.lead r (by rw [hrecords]; rfl) (key, v) List.mem_cons_self
    have hrecorded : Steady p { suspended with paths := .step key v :: suspended.paths } := by
      refine { hsteady with paths := ?_ }
      rw [hpaths, hrecords]
      exact .step hform.1 hlead hnavigated
    exact hrecorded.pushValue hform.2

/-- An array that is about to be iterated has a 64-bit integer for every position. -/
def Countable (p : Program) (m : PlainMachine) : Prop :=
  p.at? m.pc = some .each →
    ∀ items, m.stack.head? = some (.value (.array items)) → items.size ≤ 2 ^ 63

/-- An iteration starts from a value, and while a path is recorded from the one that it has
reached. -/
theorem sound_iterate (h : Steady p m) (hat : p.at? m.pc = some .each) (hcount : Countable p m) :
    m.iterate.Sound p := by
  unfold iterate popOperand
  split
  · exact h.toStored
  · cases hstack : m.stack with
    | nil => exact ⟨h.toStored, .string _⟩
    | cons x stack =>
      have hproper := h.stack
      rw [hstack] at hproper
      have hpopped : Steady p { m with stack, resuming := false } :=
        { h with
          forward := rfl
          stack := fun y hy => hproper y (List.mem_cons_of_mem x hy) }
      cases x with
      | entries entries => exact absurd (hproper _ List.mem_cons_self) id
      | closure pc scope => exact ⟨h.toStored, .string _⟩
      | value v =>
        have hform : v.WellFormed := hproper _ List.mem_cons_self
        dsimp only [entriesOf]
        by_cases hoff : tracksPath { m with stack } && !isReached { m with stack } v
        · rw [if_pos hoff]
          exact ⟨h.toStored, .string _⟩
        · rw [if_neg hoff]
          cases hkeyed : v.keyed? with
          | none => exact ⟨h.toStored, .string _⟩
          | some entries =>
            have hsize : ∀ items, v = .array items → items.size ≤ 2 ^ 63 := by
              rintro items rfl
              exact hcount hat items (by rw [hstack]; rfl)
            -- while a path is recorded, the iterated value is the one that it has reached
            have hfits : Fits m.paths entries := by
              refine ⟨hform.keyed? hkeyed, fun r hr entry hentry => ?_⟩
              have hreached : m.isReached v = true := by
                simp only [Bool.and_eq_true, Bool.not_eq_true', not_and, Bool.not_eq_false] at hoff
                apply hoff
                cases hpaths : m.paths with
                | nil => simp [hpaths] at hr
                | cons r records => simp [tracksPath]
              exact (Value.leads_of_keyed? hform hsize hkeyed hentry).of_alike
                (alike_of_isReached hreached hr)
            cases entries with
            | nil => exact { hpopped.toStored with }
            | cons entry rest => exact steady_visit hpopped hat hfits

/-! ## One dispatch -/

theorem sound_execute (h : Steady p m) (hat : p.at? m.pc = some i) (hform : p.KeepsForm)
    (hroles : p.natives.CoreNavigation) (hcount : Countable p m) : (m.execute p i).Sound p := by
  cases i with
  | nop => exact h
  | push v => exact h.pushValue (hform.push m.pc v hat)
  | pop => exact sound_dropTop h
  | dup => exact sound_duplicate h
  | swap => exact sound_exchange h
  | const v => exact sound_replaceTop h (hform.const m.pc v hat)
  | load a => exact sound_loadVariable h a
  | store a => exact sound_storeVariable h a
  | append a => exact sound_appendVariable h a
  | object pairs => exact sound_buildObject h pairs
  | fork target => exact sound_fork h hat
  | forkOpt target => exact sound_forkOpt h hat
  | forkLabel label => exact sound_forkLabel h hat
  | backtrack => exact h.toStored
  | each => exact sound_iterate h hat hcount
  | jump target => exact h
  | jumpIfNot target => exact sound_jumpUnless h target
  | call target => exact { h with }
  | callNative id argc => exact sound_callNative h hform hroles id argc
  | pushPc target => exact h.pushOperand trivial
  | callPc => exact sound_callClosure h
  | scope id slots => exact sound_enterScope h id slots p.length
  | ret => exact sound_leaveScope h hat
  | pathBegin => exact sound_openPath h
  | pathEnd => exact sound_closePath h

/-- A branch that is taken up goes forward with what has waited for it, or is exhausted. -/
theorem sound_resume (h : Stored p m) (hresume : m.resuming = true)
    (hwait : Waits p m.pc m.paths m.stack) (hat : p.at? m.pc = some i) :
    (m.execute p i).Sound p := by
  cases hwait with
  | @plain j hat' hpoint hne hpaths hstack =>
    obtain rfl : i = j := Option.some.inj (hat.symm.trans hat')
    cases i with
    | fork target =>
      dsimp only [execute, fork]
      rw [if_neg (by simp [hresume])]
      split
      · exact h
      · exact { h with forward := rfl, stack := hstack, paths := hpaths }
    | forkOpt target =>
      dsimp only [execute, forkOpt]
      rw [if_neg (by simp [hresume])]
      split
      · exact h
      · rename_i fault hfault
        split
        · have hcaught : Steady p { m with fault := none, resuming := false } :=
            { h with fault := fun _ hnone => (by cases hnone), forward := rfl, stack := hstack,
                     paths := hpaths }
          exact hcaught.pushValue (h.fault fault hfault)
        · exact h
    | forkLabel label =>
      dsimp only [execute, forkLabel]
      rw [if_neg (by simp [hresume])]
      split
      · exact { h with fault := fun _ hnone => (by cases hnone) }
      · exact h
    | each => exact absurd rfl hne
    | ret =>
      dsimp only [execute, leaveScope]
      rw [if_pos (by simp [hresume])]
      exact h
    | _ => cases hpoint
  | @each entries below hat' hpaths hstack hbelow hfits =>
    obtain rfl : i = .each := Option.some.inj (hat.symm.trans hat')
    dsimp only [execute, iterate, popOperand]
    rw [hstack]
    split
    · exact h
    · have hresumed : Steady p { m with stack := below, resuming := false } :=
        { h with forward := rfl, stack := hbelow, paths := hpaths }
      dsimp only [entriesOf]
      cases entries with
      | nil => exact { h with }
      | cons entry rest => exact steady_visit hresumed hat hfits

theorem Sound.stored (h : Sound p m) (hrunning : m.finished = false) : Stored p m := by
  cases h with
  | ended hended => simp [hended] at hrunning
  | forward h => exact h.toStored
  | waiting h hresume hwait => exact h

theorem sound_step (h : Sound p m) (hrunning : m.finished = false) (hat : p.at? m.pc = some i)
    (hform : p.KeepsForm) (hroles : p.natives.CoreNavigation) (hcount : Countable p m) :
    (m.step p i).Sound p := by
  have hexecute : ∀ ticks : Nat, (execute { m with ticks } p i).Sound p := by
    intro ticks
    cases h with
    | ended hended => simp [hended] at hrunning
    | forward h => exact sound_execute (m := { m with ticks }) { h with } hat hform hroles hcount
    | waiting h hresume hwait =>
      exact sound_resume (m := { m with ticks }) { h with } hresume hwait hat
  have hstored := h.stored hrunning
  unfold step
  dsimp only
  split
  · split
    · exact ⟨{ hstored with }, .string _⟩
    · exact hexecute 0
  · exact hexecute (m.ticks + 1)

/-- A dispatch keeps the invariant. -/
theorem sound_dispatch (h : Sound p m) (hform : p.KeepsForm) (hroles : p.natives.CoreNavigation)
    (hcount : Countable p m) : Sound p (dispatch p m).machine := by
  cases hrunning : m.finished with
  | true =>
    rw [dispatch_finished hrunning]
    exact h
  | false =>
    cases hat : p.at? m.pc with
    | none =>
      rw [dispatch_outside hrunning hat]
      exact sound_unwind (h.stored hrunning)
    | some i =>
      rw [dispatch_at hrunning hat]
      exact sound_follow (sound_step h hrunning hat hform hroles hcount)

/-- Where a path is closed the machine goes forward, along a path that has been navigated. -/
theorem Sound.navigated (h : Sound p m) (hrunning : m.finished = false)
    (hat : p.at? m.pc = some .pathEnd) : Navigated m.paths := by
  cases h with
  | ended hended => simp [hended] at hrunning
  | forward h => exact h.paths
  | waiting h hresume hwait =>
    cases hwait with
    | plain hat' hpoint =>
      rw [← Option.some.inj (hat.symm.trans hat')] at hpoint
      cases hpoint
    | each hat' => cases Option.some.inj (hat.symm.trans hat')

end PlainMachine

open RewindStack

/-- The components of a path lead from its start to a value like the one that it has reached. -/
theorem replay_navigated {above : List PathRecord} {base : Value} {rest : List PlainRecord}
    (h : Navigated (above.map (·.plain) ++ .start base :: rest))
    (hsteps : ∀ r ∈ above, ∃ component v, r = .step component v) :
    ∃ w, base.replay (above.reverse.filterMap PathRecord.component?) = .ok w ∧
      ∀ r, (above.map (·.plain) ++ .start base :: rest).head? = some r → w.Alike r.value := by
  -- the components are followed from the start upwards, so the last step comes last
  induction above with
  | nil =>
    refine ⟨base, rfl, fun r hr => .inl ?_⟩
    rw [← Option.some.inj hr]
    rfl
  | cons r above ih =>
    obtain ⟨component, v, rfl⟩ := hsteps r List.mem_cons_self
    rw [List.map_cons, List.cons_append] at h ⊢
    generalize above.map (·.plain) ++ .start base :: rest = records at h ih ⊢
    cases h with
    | @step _ _ below rest _ hlead hbelow =>
      obtain ⟨w, hw, halike⟩ := ih hbelow fun r hr => hsteps r (List.mem_cons_of_mem _ hr)
      obtain ⟨u, hu, hreached⟩ :=
        Value.replay_concat hw (hlead.of_alike (halike below rfl))
      refine ⟨u, ?_, fun r hr => ?_⟩
      · rw [List.reverse_cons, List.filterMap_append]
        exact hu
      · rw [← Option.some.inj hr]
        exact hreached

namespace Machine

variable {p : Program} {m m' : Machine}

/-- What closing a path finds and answers. -/
theorem closePath_eq_next (h : m.Coherent) (hclose : m.closePath = .next m') :
    ∃ i above base outer records v rest, m.pathDepth = some i ∧
      m.paths.chain = above ++ (i, .start base outer) :: records ∧
      (∀ r ∈ above.map (·.2), ∃ component w, r = .step component w) ∧
      m.stack.toList = .value v :: rest ∧ m.isReached v = true ∧
      m'.stack.toList = .value (.array ((above.map (·.2)).reverse.filterMap
        PathRecord.component?).toArray) :: rest := by
  obtain ⟨i, base, steps, hclosed⟩ := pathClosed_closePath h hclose
  obtain ⟨v, rest, hstack, hreached, hstack'⟩ := hclosed.answer
  refine ⟨i, steps, base, _, _, v, rest, hclosed.depth, hclosed.chain, ?_, hstack, hreached, hstack'⟩
  intro r hr
  obtain ⟨cell, hcell, rfl⟩ := List.mem_map.mp hr
  exact hclosed.onlySteps cell hcell

variable {settings : Settings} {input : Value} {interrupt : Option Interrupt}
  {signals : Nat → Signals} {idle : Machine}

/-- The invariant holds in every state of a run. -/
theorem sound_course (hinput : input.WellFormed) (hform : p.KeepsForm)
    (hroles : p.natives.CoreNavigation)
    {n : Nat} (hcount : ∀ j < n, ∀ items,
      p.at? (course p (idle.load settings input interrupt) signals j).pc = some .each →
      (course p (idle.load settings input interrupt) signals j).stack.top? =
        some (.value (.array items)) → items.size ≤ 2 ^ 63) :
    PlainMachine.Sound p (course p (idle.load settings input interrupt) signals n).plain := by
  have hstart := coherent_load idle settings input interrupt
  induction n with
  | zero =>
    rw [course, plain_load]
    refine .forward ⟨⟨?_, ?_, ?_⟩, rfl, ?_, .nil⟩
    · intro x hx
      rw [(Array.mem_replicate.mp hx).2]
      exact .null
    · intro fault hfault
      cases hfault
    · intro b hb
      cases hb
    · intro x hx
      rw [List.mem_singleton.mp hx]
      exact hinput
  | succ n ih =>
    have hcoherent := (coherent_course hstart p signals n).withSignals (signals n)
    have hcountable : PlainMachine.Countable p ((course p (idle.load settings input interrupt)
        signals n).withSignals (signals n)).plain := by
      intro heach items htop
      apply hcount n (Nat.lt_succ_self n) items heach
      rw [← plain_top? hcoherent] at htop
      exact htop
    have hsound : PlainMachine.Sound p ((course p (idle.load settings input interrupt)
        signals n).withSignals (signals n)).plain := by
      cases ih fun j hj => hcount j (Nat.lt_succ_of_lt hj) with
      | ended h => exact .ended h
      | forward h => exact .forward { h with }
      | waiting h hresume hwait => exact .waiting { h with } hresume hwait
    have hnext := PlainMachine.sound_dispatch hsound hform hroles hcountable
    rw [← plain_dispatch hcoherent] at hnext
    rw [course]
    cases hd : dispatch p ((course p (idle.load settings input interrupt) signals n).withSignals
      (signals n)) with
    | running m' =>
      rw [hd] at hnext
      exact hnext
    | done m' item =>
      rw [hd] at hnext
      exact hnext

/-- Following the components that closing a path answers with, from the value that the path was
opened at, leads to a value that equals the one the path was closed at. An array that is iterated
has no more items than 64-bit integers can count, as no memory would hold more. -/
theorem path_sound (p : Program) (idle : Machine) (settings : Settings) (input : Value)
    (interrupt : Option Interrupt) (signals : Nat → Signals) (hinput : input.WellFormed)
    (hform : p.KeepsForm) (hroles : p.natives.CoreNavigation)
    (n : Nat) (hcount : ∀ j < n, ∀ items,
      p.at? (course p (idle.load settings input interrupt) signals j).pc = some .each →
      (course p (idle.load settings input interrupt) signals j).stack.top? =
        some (.value (.array items)) → items.size ≤ 2 ^ 63) {m' : Machine}
    (hrunning : (course p (idle.load settings input interrupt) signals n).finished = false)
    (hat : p.at? (course p (idle.load settings input interrupt) signals n).pc = some .pathEnd)
    (hstep : ((course p (idle.load settings input interrupt) signals n).withSignals
      (signals n)).step p .pathEnd = .next m') :
    ∃ k i base v components rest,
      Opens p (course p (idle.load settings input interrupt) signals) k n i base ∧
      (course p (idle.load settings input interrupt) signals n).pathDepth = some i ∧
      (course p (idle.load settings input interrupt) signals n).stack.toList = .value v :: rest ∧
      m'.stack.toList = .value (.array components.toArray) :: rest ∧
      ∃ w, base.replay components = .ok w ∧ w.equal v = true := by
  have hstart := coherent_load idle settings input interrupt
  have hsound := sound_course hinput hform hroles hcount
  have hopens := opens_course hstart rfl p signals n
  have hcoherent := coherent_course hstart p signals n
  generalize hrun : course p (idle.load settings input interrupt) signals = run at *
  obtain ⟨ticks, hclose⟩ := execute_of_step hstep
  obtain ⟨i, above, base, outer, records, v, rest, hdepth, hchain, hsteps, hstack, hreached, hm'⟩ :=
    closePath_eq_next (m := { (run n) with signals := signals n, ticks }) { hcoherent with } hclose
  -- the instruction that opened the path
  obtain ⟨cell, hcell, hvalue, -⟩ := chainAt_eq_append hcoherent.paths.toLinked hchain
  obtain ⟨value, below⟩ := cell
  obtain rfl : value = .start base outer := hvalue
  obtain ⟨k, hk⟩ := hopens i base outer below hcell
  refine ⟨k, i, base, v, _, rest, hk, hdepth, hstack, hm', ?_⟩
  -- the path that it records
  have hnavigated : Navigated (run n).plain.paths := hsound.navigated hrunning hat
  have hpaths : (run n).plain.paths = (above.map (·.2)).map (·.plain) ++
      .start base :: (records.map (·.2)).map (·.plain) := by
    show ((run n).paths.chain.map (·.2)).map (·.plain) = _
    rw [show (run n).paths.chain = _ from hchain]
    simp [PathRecord.plain]
  rw [hpaths] at hnavigated
  obtain ⟨w, hw, halike⟩ := replay_navigated hnavigated hsteps
  refine ⟨w, hw, ?_⟩
  have hplain : (run n).plain.isReached v = true := (plain_isReached hcoherent v).trans hreached
  unfold PlainMachine.isReached at hplain
  rw [hpaths] at hplain
  generalize (above.map (·.2)).map PathRecord.plain ++ _ = path at hplain halike
  cases path with
  | nil => cases hplain
  | cons r path => exact (halike r rfl).equal hplain

/-- An item of an item is reached by an iteration and a native call, while a path is recorded. -/
def pathProgram : Program where
  name := "path"
  code := #[.scope 0 0, .pathBegin, .each, .push (.int 0), .swap, .dup, .callNative 0 2, .pathEnd,
    .ret]
  functions := #[]
  lines := #[]
  natives := .core

/-- The run of `pathProgram` over an array in an array. -/
def pathRun : Nat → Machine :=
  course pathProgram (load {} {} (.array #[.array #[.null]]) none) fun _ => {}

theorem keepsForm_pathProgram : pathProgram.KeepsForm where
  push := by
    intro pc v hat
    have hmem := Array.mem_of_getElem? hat
    simp only [pathProgram, List.mem_toArray, List.mem_cons, Instruction.push.injEq,
      reduceCtorEq, List.not_mem_nil, false_or, or_false] at hmem
    rw [hmem]
    exact .int 0
  const := by
    intro pc v hat
    have hmem := Array.mem_of_getElem? hat
    simp [pathProgram] at hmem
  natives := keepsForm_core

theorem path_sound_pathProgram :
    ∃ m', ((pathRun 7).withSignals {}).step pathProgram .pathEnd = .next m' ∧
      ∃ k i base v components rest,
        Opens pathProgram pathRun k 7 i base ∧ (pathRun 7).pathDepth = some i ∧
        (pathRun 7).stack.toList = .value v :: rest ∧
        m'.stack.toList = .value (.array components.toArray) :: rest ∧
        ∃ w, base.replay components = .ok w ∧ w.equal v = true := by
  have hinput : (Value.array #[.array #[.null]]).WellFormed := by
    refine .array ?_
    intro v hv
    rw [List.mem_singleton.mp (List.mem_toArray.mp hv)]
    refine .array ?_
    intro w hw
    rw [List.mem_singleton.mp (List.mem_toArray.mp hw)]
    exact .null
  have hroles : pathProgram.natives.CoreNavigation := coreNavigation_core
  have hcount : ∀ j < 7, ∀ items, pathProgram.at? (pathRun j).pc = some .each →
      (pathRun j).stack.top? = some (.value (.array items)) → items.size ≤ 2 ^ 63 := by
    intro j hj items heach htop
    have hpc : ∀ j < 7, (pathRun j).pc = j := by decide +kernel
    have honly : ∀ j < 7, (pathProgram.at? j).map (·.opcode) = some 0x24 → j = 2 := by decide
    rw [hpc j hj] at heach
    obtain rfl := honly j hj (congrArg (·.map (·.opcode)) heach)
    have hinput : (pathRun 2).stack.top? = some (.value (.array #[.array #[.null]])) := rfl
    rw [hinput, Option.some.injEq, Operand.value.injEq, Value.array.injEq] at htop
    rw [← htop]
    decide
  have hpc : (pathRun 7).pc = 7 := by decide +kernel
  have hat : pathProgram.at? (pathRun 7).pc = some .pathEnd := by
    rw [hpc]
    rfl
  have hrunning : (pathRun 7).finished = false := by decide +kernel
  have hgoes : (match ((pathRun 7).withSignals {}).step pathProgram .pathEnd with
      | .next _ => true
      | _ => false) = true := by decide +kernel
  cases hstep : ((pathRun 7).withSignals {}).step pathProgram .pathEnd with
  | next m' =>
    exact ⟨m', rfl, path_sound pathProgram {} {} _ none (fun _ => {}) hinput keepsForm_pathProgram
      hroles 7 hcount hrunning hat hstep⟩
  | _ =>
    rw [hstep] at hgoes
    cases hgoes

end Machine
end QueryMachine
