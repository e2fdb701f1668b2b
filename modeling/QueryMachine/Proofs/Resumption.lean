import QueryMachine.Proofs.Backtracking

/-!
# Going forward and taking up branches

A machine either goes forward or takes up a branch, and one flag tells which. A pull that gives an
item sets the flag, and so does every branch that is taken up; three instructions clear it again,
and a look at the interrupt may fail before they get to it. Still no other instruction than those
that can be resumed at ever finds the flag set, or a fault that is looking for a handler.

* `mode_execute`: an instruction that is no resume point leaves the flag and the fault alone;
* `goesForward_execute`: after any instruction the run goes on with neither, if the instruction
  was carried out forward or is a resume point;
* `poised_course`: so every state of a run is one of the two. The proof is an induction on the run:
  a branch that is taken up leads to the instruction that left it behind.
-/

namespace QueryMachine
namespace Machine

variable {m m' e : Machine} {p : Program} {i : Instruction}

/-- No branch is being taken up, and no fault is looking for a handler. -/
structure IsForward (m : Machine) : Prop where
  resuming : m.resuming = false
  fault : m.fault = none

/-- What tells whether a machine goes forward. -/
def mode (m : Machine) : Bool × Option Fault :=
  (m.resuming, m.fault)

theorem IsForward.of_mode (h : m.IsForward) (hmode : m'.mode = m.mode) : m'.IsForward := by
  rw [mode, mode, Prod.mk.injEq] at hmode
  exact ⟨hmode.1.trans h.resuming, hmode.2.trans h.fault⟩

/-! ## Instructions that do not look at the mode -/

theorem mode_popOperand {x : Operand} (hp : m.popOperand = .ok (x, m')) : m'.mode = m.mode := by
  obtain ⟨t, -, rfl⟩ := popOperand_eq_ok hp
  rfl

theorem mode_popValue {v : Value} (hp : m.popValue = .ok (v, m')) : m'.mode = m.mode :=
  mode_popOperand (popValue_eq_ok hp)

theorem mode_popPairs {count : Nat} {following pairs : List (String × Value)}
    (hp : m.popPairs following count = .ok (pairs, m')) : m'.mode = m.mode := by
  induction count generalizing m following with
  | zero =>
    rw [popPairs, Except.ok.injEq, Prod.mk.injEq] at hp
    rw [hp.2]
  | succ count ih =>
    rw [popPairs] at hp
    split at hp
    · cases hp
    · rename_i hv
      split at hp
      · cases hp
      · rename_i hkey
        exact (ih hp).trans ((mode_popValue hkey).trans (mode_popValue hv))
      · cases hp

theorem mode_exchange (m : Machine) : m.exchange.machine.mode = m.mode := by
  unfold exchange
  split
  · rfl
  · rename_i hx
    split
    · rfl
    · rename_i hy
      exact (mode_popOperand hy).trans (mode_popOperand hx)

theorem mode_callClosure (m : Machine) : m.callClosure.machine.mode = m.mode := by
  unfold callClosure
  split
  · rfl
  · rename_i hp
    have hpop := mode_popOperand hp
    exact hpop
  · rfl

theorem mode_storeVariable (m : Machine) (a : Address) :
    (m.storeVariable a).machine.mode = m.mode := by
  unfold storeVariable
  split
  · rfl
  · split
    · rfl
    · rename_i hp
      have hpop := mode_popOperand hp
      exact hpop

theorem mode_appendVariable (m : Machine) (a : Address) :
    (m.appendVariable a).machine.mode = m.mode := by
  unfold appendVariable
  split
  · rfl
  · split
    · rfl
    · rename_i hp
      have hpop := mode_popValue hp
      split
      · exact hpop
      · rfl
      · rfl

theorem mode_openPath (m : Machine) : m.openPath.machine.mode = m.mode := by
  unfold openPath
  split
  · rfl
  · split <;> rfl

theorem mode_closePath (m : Machine) : m.closePath.machine.mode = m.mode := by
  unfold closePath
  split
  · rfl
  · split
    · rfl
    · rename_i hp
      have hpop := mode_popValue hp
      split
      · rfl
      · dsimp only
        split
        · exact hpop
        · rfl

theorem mode_callNative (m : Machine) (table : NativeTable) (id : NativeId) (argc : Nat) :
    (m.callNative table id argc).machine.mode = m.mode := by
  unfold callNative
  split
  · rfl
  · rename_i input args popped hp
    obtain ⟨t, rfl⟩ := popCall_eq_ok hp
    obtain ⟨signals, hcalled⟩ := tripFlag_eq { m with stack := t } table id argc
    rw [hcalled]
    dsimp only
    split
    · rfl
    · split
      · rfl
      · rename_i hr
        rcases recordStep_eq_ok hr with rfl | ⟨-, component, rfl⟩
        · rfl
        · rfl

/-- Only resume points look at the mode of a machine and change it. -/
theorem mode_execute (m : Machine) (p : Program) (hi : i.isResumePoint = false) :
    (m.execute p i).machine.mode = m.mode := by
  cases i with
  | nop | push | backtrack | jump | call | pushPc | scope => rfl
  | pop =>
    simp only [execute, dropTop]
    split
    · rfl
    · rename_i hp
      exact mode_popOperand hp
  | dup =>
    simp only [execute, duplicate]
    split <;> rfl
  | swap => exact mode_exchange m
  | const v =>
    simp only [execute, replaceTop]
    split
    · rfl
    · rename_i hp
      have hpop := mode_popOperand hp
      exact hpop
  | load a =>
    simp only [execute, loadVariable]
    split <;> rfl
  | store a => exact mode_storeVariable m a
  | append a => exact mode_appendVariable m a
  | object pairs =>
    simp only [execute, buildObject]
    split
    · rfl
    · rename_i hp
      have hpop := mode_popPairs hp
      exact hpop
  | jumpIfNot target =>
    simp only [execute, jumpUnless]
    split
    · rfl
    · rename_i hp
      split <;> exact mode_popValue hp
  | callNative id argc => exact mode_callNative m p.natives id argc
  | callPc => exact mode_callClosure m
  | pathBegin => exact mode_openPath m
  | pathEnd => exact mode_closePath m
  | fork | forkOpt | forkLabel | each | ret => cases hi

end Machine

/-! ## Going on -/

/-- An effect after which the run goes on leaves a machine that goes forward. -/
def Effect.GoesForward : Effect → Prop
  | .next m | .jump m _ | .yield m _ => m.IsForward
  | .stop _ | .fail .. => True

namespace Machine

variable {m m' e : Machine} {p : Program} {i : Instruction}

theorem IsForward.goesForward {effect : Effect} (h : m.IsForward)
    (hmode : effect.machine.mode = m.mode) : effect.GoesForward := by
  cases effect with
  | next | jump | yield => exact h.of_mode hmode
  | stop | fail => trivial

/-- The machine goes forward, or it is about to resume at an instruction that knows of that. -/
def Admits (m : Machine) (i : Instruction) : Prop :=
  m.IsForward ∨ m.resuming = true ∧ i.isResumePoint = true

/-- A fault is looked for only by resuming. -/
theorem Admits.resuming (h : m.Admits i) (hfault : m.fault.isSome = true) : m.resuming = true := by
  rcases h with hforward | ⟨hresuming, -⟩
  · rw [hforward.fault] at hfault
    cases hfault
  · exact hresuming

theorem Admits.isForward (h : m.Admits i) (hresuming : m.resuming = false) : m.IsForward := by
  rcases h with hforward | ⟨hset, -⟩
  · exact hforward
  · rw [hresuming] at hset
    cases hset

theorem mode_suspendEntries (m : Machine) (rest : List (Value × Value)) :
    (m.suspendEntries rest).mode = m.mode := by
  unfold suspendEntries
  split <;> rfl

theorem mode_visit (m : Machine) (key v : Value) : (m.visit key v).mode = m.mode := by
  unfold visit
  dsimp only
  split <;> rfl

theorem goesForward_iterate (m : Machine) : m.iterate.GoesForward := by
  unfold iterate
  split
  · trivial
  · rename_i hfault
    split
    · trivial
    · rename_i x popped hp
      obtain ⟨t, -, rfl⟩ := popOperand_eq_ok hp
      split
      · trivial
      · trivial
      · have hresumed : IsForward { m with stack := t, resuming := false } :=
          ⟨rfl, by simpa using hfault⟩
        exact hresumed.of_mode ((mode_visit _ _ _).trans (mode_suspendEntries _ _))

theorem goesForward_leaveScope (m : Machine) : m.leaveScope.GoesForward := by
  unfold leaveScope
  split
  · trivial
  · rename_i hmode
    have hforward : m.IsForward := by
      simp only [Bool.or_eq_true, not_or, Bool.not_eq_true, Option.isSome_eq_false_iff,
        Option.isNone_iff_eq_none] at hmode
      exact ⟨hmode.1, hmode.2⟩
    split
    · trivial
    · dsimp only
      split
      · split
        · trivial
        · rename_i hp
          have hpop := mode_popValue hp
          exact hforward.of_mode hpop
      · exact hforward.of_mode rfl

/-- Wherever the run goes on after an instruction, it goes forward and without a fault. -/
theorem goesForward_execute (h : m.Admits i) : (m.execute p i).GoesForward := by
  cases hpoint : i.isResumePoint with
  | false =>
    rcases h with hforward | ⟨-, hset⟩
    · exact hforward.goesForward (mode_execute m p hpoint)
    · rw [hpoint] at hset
      cases hset
  | true =>
    cases i with
    | fork target =>
      simp only [execute, fork]
      split
      · rename_i hresuming
        exact (h.isForward (by simpa using hresuming)).of_mode rfl
      · split
        · trivial
        · rename_i hfault
          exact ⟨rfl, by simpa using hfault⟩
    | forkOpt target =>
      simp only [execute, forkOpt]
      split
      · rename_i hresuming
        exact (h.isForward (by simpa using hresuming)).of_mode rfl
      · split
        · trivial
        · split
          · exact ⟨rfl, rfl⟩
          · trivial
    | forkLabel label =>
      simp only [execute, forkLabel]
      split
      · rename_i hresuming
        exact (h.isForward (by simpa using hresuming)).of_mode rfl
      · split <;> trivial
    | each => exact goesForward_iterate m
    | ret => exact goesForward_leaveScope m
    | _ => cases hpoint

theorem goesForward_step (h : m.Admits i) : (m.step p i).GoesForward := by
  rcases step_eq m p i with ⟨ticks, hstep⟩ | ⟨reason, -, hstep⟩
  · have hticks : Admits { m with ticks } i := h.imp (fun hm => ⟨hm.resuming, hm.fault⟩) id
    rw [hstep]
    exact goesForward_execute hticks
  · rw [hstep]
    trivial

/-- Only a return completes a result, and the run stays on it. -/
theorem ret_of_yield {v : Value} (h : m.execute p i = .yield e v) : i = .ret ∧ e.pc = m.pc := by
  cases i with
  | ret =>
    refine ⟨rfl, ?_⟩
    simp only [execute, leaveScope] at h
    split at h
    · cases h
    · split at h
      · cases h
      · split at h
        · split at h
          · cases h
          · rename_i hp
            obtain ⟨t, -, rfl⟩ := popOperand_eq_ok (popValue_eq_ok hp)
            cases h
            rfl
        · cases h
  | nop | push | jump | call | pushPc | scope | backtrack => cases h
  | pop | dup | swap | const | object | jumpIfNot | load | store | append | callPc | fork
  | forkOpt | forkLabel | each | callNative | pathBegin | pathEnd =>
    simp only [execute, dropTop, duplicate, exchange, replaceTop, buildObject, jumpUnless,
      loadVariable, storeVariable, appendVariable, callClosure, fork, forkOpt, forkLabel,
      iterate, callNative, openPath, closePath] at h
    repeat' split at h
    all_goals cases h

/-! ## Runs -/

/-- The state of a machine between two dispatches: its run is over, or it goes forward, or it
resumes at an instruction that can be resumed at. -/
inductive Poised (p : Program) (m : Machine) : Prop where
  | finished (h : m.finished = true)
  | forward (h : m.IsForward)
  | resuming {i : Instruction} (hset : m.resuming = true) (hat : p.at? m.pc = some i)
      (hpoint : i.isResumePoint = true)

theorem Poised.admits (h : Poised p m) (hrunning : m.finished = false)
    (hat : p.at? m.pc = some i) : m.Admits i := by
  cases h with
  | finished hover =>
    rw [hrunning] at hover
    cases hover
  | forward hforward => exact .inl hforward
  | resuming hset hat' hpoint =>
    rw [Option.some.inj (hat.symm.trans hat')]
    exact .inr ⟨hset, hpoint⟩

/-- The instructions that leave branches behind are resume points. -/
theorem isResumePoint_of_branchKind? {kind : BranchKind} (h : i.branchKind? = some kind) :
    i.isResumePoint = true := by
  cases i with
  | fork | forkOpt | forkLabel | each => rfl
  | _ => cases h

variable {signals : Nat → Signals} {n : Nat}

/-- A continuation that ends in a run takes up a branch at the instruction that left it behind, or
the run is over. -/
theorem poised_unwind (hstart : m.Coherent) (hnone : m.branches = [])
    (hend : ending? p ((course p m signals n).withSignals (signals n)) = some e) :
    Poised p (course p m signals (n + 1)) := by
  cases hb : e.branches with
  | nil =>
    rw [course, dispatch_of_ending? hend, unwind_nil hb]
    exact .finished rfl
  | cons b older =>
    obtain ⟨k, -, -, -, i, hat, hkind⟩ := restored_course hstart hnone hend hb
    rw [course_takeUp hend hb]
    exact .resuming rfl hat (isResumePoint_of_branchKind? hkind)

theorem poised_succ (hstart : m.Coherent) (hnone : m.branches = [])
    (h : Poised p (course p m signals n)) : Poised p (course p m signals (n + 1)) := by
  cases hend : ending? p ((course p m signals n).withSignals (signals n)) with
  | some e => exact poised_unwind hstart hnone hend
  | none =>
    rcases standing p ((course p m signals n).withSignals (signals n)) with
        hover | ⟨hrunning, hat⟩ | ⟨i, hrunning, hat⟩
    · rw [course, dispatch_finished hover]
      exact .finished hover
    · rw [ending?_outside hrunning hat] at hend
      cases hend
    · have hadmits : Admits ((course p m signals n).withSignals (signals n)) i :=
        (h.admits hrunning hat).imp (fun hm => ⟨hm.resuming, hm.fault⟩) id
      have hforward := goesForward_step (p := p) hadmits
      rw [ending?_at hrunning hat] at hend
      rw [course, dispatch_at hrunning hat]
      cases heffect : step ((course p m signals n).withSignals (signals n)) p i with
      | next e | jump e target =>
        rw [heffect] at hforward
        exact .forward ⟨hforward.resuming, hforward.fault⟩
      | yield e v =>
        -- the run stays on the return
        rcases step_eq ((course p m signals n).withSignals (signals n)) p i with
            ⟨ticks, hstep⟩ | ⟨reason, -, hstep⟩
        · obtain ⟨rfl, hpc⟩ := ret_of_yield (hstep.symm.trans heffect)
          refine .resuming (i := .ret) rfl ?_ rfl
          exact (congrArg p.at? hpc).trans hat
        · rw [hstep] at heffect
          cases heffect
      | stop e | fail e fault =>
        rw [heffect] at hend
        cases hend

theorem poised_course (hstart : m.Coherent) (hnone : m.branches = []) (hforward : m.IsForward)
    (n : Nat) : Poised p (course p m signals n) := by
  induction n with
  | zero => exact .forward hforward
  | succ n ih => exact poised_succ hstart hnone ih

/-! ## Resuming -/

/-- What an instruction can do when the machine resumes at it. -/
inductive Resumption (m : Machine) (i : Instruction) : Effect → Prop where
  /-- The branch is given up, or the interrupt stops it. -/
  | ends {effect : Effect} {e : Machine} (h : effect.ended? = some e) : Resumption m i effect
  /-- A fork goes on with its alternative. -/
  | alternative {e : Machine} {target : Nat} (hi : i = .fork target) (hfault : m.fault = none) :
      Resumption m i (.jump e target)
  /-- A fault is recovered from. -/
  | recovery {e : Machine} {target : Nat} {fault : Fault} (hi : i = .forkOpt target)
      (hfault : m.fault = some fault) (hcatch : fault.isCatchable = true) :
      Resumption m i (.jump e target)
  /-- An iteration goes on with the next entry. -/
  | entry {e : Machine} (hi : i = .each) (hfault : m.fault = none) : Resumption m i (.next e)

theorem resumption_execute (hset : m.resuming = true) (hpoint : i.isResumePoint = true) :
    Resumption m i (m.execute p i) := by
  cases i with
  | fork target =>
    simp only [execute, fork, hset, Bool.not_true, Bool.false_eq_true, if_false]
    split
    · exact .ends rfl
    · rename_i hfault
      exact .alternative rfl (by simpa using hfault)
  | forkOpt target =>
    simp only [execute, forkOpt, hset, Bool.not_true, Bool.false_eq_true, if_false]
    split
    · exact .ends rfl
    · rename_i fault hfault
      split
      · rename_i hcatch
        exact .recovery rfl hfault hcatch
      · exact .ends rfl
  | forkLabel label =>
    simp only [execute, forkLabel, hset, Bool.not_true, Bool.false_eq_true, if_false]
    split <;> exact .ends rfl
  | each =>
    simp only [execute, iterate]
    split
    · exact .ends rfl
    · rename_i hfault
      split
      · exact .ends rfl
      · split
        · exact .ends rfl
        · exact .ends rfl
        · exact .entry rfl (by simpa using hfault)
  | ret =>
    simp only [execute, leaveScope, hset, Bool.true_or, if_true]
    exact .ends rfl
  | _ => cases hpoint

theorem resumption_step (hset : m.resuming = true) (hpoint : i.isResumePoint = true) :
    Resumption m i (m.step p i) := by
  rcases step_eq m p i with ⟨ticks, hstep⟩ | ⟨reason, -, hstep⟩
  · have h := resumption_execute (m := { m with ticks }) (p := p) hset hpoint
    rw [hstep]
    generalize execute { m with ticks } p i = effect at h
    cases h with
    | ends h => exact .ends h
    | alternative hi hfault => exact .alternative hi hfault
    | recovery hi hfault hcatch => exact .recovery hi hfault hcatch
    | entry hi hfault => exact .entry hi hfault
  · rw [hstep]
    exact .ends rfl

/-- The machine `m` dispatches the instruction `i` in the mode that is meant for it. -/
structure InMode (p : Program) (m : Machine) (i : Instruction) : Prop where
  resumePoint : m.resuming = true → i.isResumePoint = true
  resuming : m.fault.isSome = true → m.resuming = true
  forward : i.isResumePoint = false → m.IsForward
  /-- Taking up a branch never has the effect that the instruction has forward. -/
  resumed : m.resuming = true → Resumption m i (m.step p i)
  /-- Where the run goes on, it goes forward. -/
  settled : (m.step p i).GoesForward

/-- Every dispatched instruction finds the mode that is meant for it, after whatever results,
recovered faults, jumps out of labels and looks at the interrupt came before. -/
theorem dispatched_in_mode (p : Program) (idle : Machine) (settings : Settings) (input : Value)
    (interrupt : Option Interrupt) (signals : Nat → Signals) (n : Nat) {i : Instruction}
    (hrunning : (course p (idle.load settings input interrupt) signals n).finished = false)
    (hat : p.at? (course p (idle.load settings input interrupt) signals n).pc = some i) :
    InMode p ((course p (idle.load settings input interrupt) signals n).withSignals (signals n))
      i := by
  have hpoised : Poised p (course p (idle.load settings input interrupt) signals n) :=
    poised_course (coherent_load idle settings input interrupt) rfl ⟨rfl, rfl⟩ n
  have hadmits : Admits ((course p (idle.load settings input interrupt) signals n).withSignals
      (signals n)) i :=
    (hpoised.admits hrunning hat).imp (fun hm => ⟨hm.resuming, hm.fault⟩) id
  generalize (course p (idle.load settings input interrupt) signals n).withSignals
    (signals n) = now at hadmits
  have hpoint : now.resuming = true → i.isResumePoint = true := by
    intro hset
    rcases hadmits with hforward | ⟨-, hpoint⟩
    · rw [hforward.resuming] at hset
      cases hset
    · exact hpoint
  refine ⟨hpoint, hadmits.resuming, ?_, fun hset => resumption_step hset (hpoint hset),
    goesForward_step hadmits⟩
  intro hnone
  rcases hadmits with hforward | ⟨-, hpoint⟩
  · exact hforward
  · rw [hnone] at hpoint
    cases hpoint

/-- Two branches are left behind, and then an iteration fails. -/
def interruptedProgram : Program where
  name := "interrupted"
  code := #[.scope 0 0, .fork 4, .fork 4, .each, .ret]
  functions := #[]
  lines := #[]
  natives := {}

/-- The fault of the iteration takes up the second branch, the interrupt trips there, and the
cancellation takes up the first branch. -/
theorem dispatched_in_mode_interruptedProgram :
    (course interruptedProgram (load {} { pollInterval := 0 } .null (some ⟨7, none⟩))
      (fun k => ⟨if k < 4 then [] else [7], 0⟩) 5).finished = false ∧
    interruptedProgram.at?
      (course interruptedProgram (load {} { pollInterval := 0 } .null (some ⟨7, none⟩))
        (fun k => ⟨if k < 4 then [] else [7], 0⟩) 5).pc = some (.fork 4) ∧
    (course interruptedProgram (load {} { pollInterval := 0 } .null (some ⟨7, none⟩))
      (fun k => ⟨if k < 4 then [] else [7], 0⟩) 5).fault = some (.canceled .requested) ∧
    InMode interruptedProgram
      ((course interruptedProgram (load {} { pollInterval := 0 } .null (some ⟨7, none⟩))
        (fun k => ⟨if k < 4 then [] else [7], 0⟩) 5).withSignals ⟨[7], 0⟩) (.fork 4) :=
  ⟨rfl, rfl, rfl, dispatched_in_mode interruptedProgram {} { pollInterval := 0 } .null
    (some ⟨7, none⟩) (fun k => ⟨if k < 4 then [] else [7], 0⟩) 5 rfl rfl⟩

end Machine
end QueryMachine
