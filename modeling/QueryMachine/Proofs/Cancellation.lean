import Mathlib.Algebra.Group.Nat.Defs
import QueryMachine.Proofs.Calls
import QueryMachine.Proofs.Registers

/-!
# Interrupts are obeyed

A run looks at its interrupt often enough, and once it finds it tripped, it ends without doing
anything else.

* `instruction?`, `Polls`: the instruction that a dispatch comes to, and whether the interrupt is
  looked at before it;
* `ticks_succ`: the count of instructions goes up by one, or starts again with a look at the
  interrupt. So it stays below the interval (`ticks_course`), and an interval without a look would
  have to be counted in full (`ticks_of_unpolled`);
* `canceled_resume`: a branch that is taken up for a cancellation is given up, whether or not the
  interrupt is looked at again, and the fault stays a cancellation. The induction on the pending
  branches is `winding_course`, and `windsUp_course` says what the host gets.
-/

namespace QueryMachine
namespace Machine

variable {m e : Machine} {b : BranchPoint} {older : List BranchPoint} {p : Program}
  {i : Instruction} {reason : CancelReason}

/-- The instruction that a dispatch comes to, unless the run is over or has left the program. -/
def instruction? (p : Program) (m : Machine) : Option Instruction :=
  if m.finished then none else p.at? m.pc

/-- A dispatch of the machine looks at the interrupt. -/
def Polls (p : Program) (m : Machine) : Prop :=
  ∃ i, instruction? p m = some i ∧ pollsAt { m with ticks := m.ticks + 1 } i = true

/-- A dispatch of the machine looks at the interrupt and finds it tripped. -/
def Trips (p : Program) (m : Machine) : Prop :=
  Polls p m ∧ ∃ reason, m.tripped? = some reason

theorem instruction?_eq_some :
    instruction? p m = some i ↔ m.finished = false ∧ p.at? m.pc = some i := by
  unfold instruction?
  cases m.finished <;> simp

/-! ## Counting instructions -/

/-- The count of instructions, and what the host has chosen about the interrupt. -/
def host (m : Machine) : Nat × Option Interrupt × Settings :=
  (m.ticks, m.interrupt, m.settings)

theorem host_of_backdrop {m' : Machine} {signals : Signals}
    (h : m'.backdrop = { m.backdrop with signals }) : m'.host = m.host := by
  have hticks : m'.ticks = m.ticks := congrArg Backdrop.ticks h
  have hinterrupt : m'.interrupt = m.interrupt := congrArg Backdrop.interrupt h
  have hsettings : m'.settings = m.settings := congrArg Backdrop.settings h
  rw [host, host, hticks, hinterrupt, hsettings]

/-- Instructions do not count themselves. -/
theorem host_execute (m : Machine) (p : Program) (i : Instruction) :
    (m.execute p i).machine.host = m.host := by
  cases i with
  | load a => exact host_of_backdrop (backdrop_loadVariable m a)
  | store a =>
    simp only [execute, storeVariable]
    split
    · rfl
    · split
      · rfl
      · rename_i hp
        obtain ⟨t, -, rfl⟩ := popOperand_eq_ok hp
        rfl
  | append a =>
    simp only [execute, appendVariable]
    split
    · rfl
    · split
      · rfl
      · rename_i hp
        obtain ⟨t, -, rfl⟩ := popOperand_eq_ok (popValue_eq_ok hp)
        split <;> rfl
  | scope => rfl
  | callNative id argc =>
    obtain ⟨signals, hkept⟩ := backdrop_callNative m p.natives id argc
    exact host_of_backdrop hkept
  | _ => exact host_of_backdrop (backdrop_execute m p rfl)

theorem host_follow (effect : Effect) : (follow effect).machine.host = effect.machine.host := by
  have hunwind : ∀ e : Machine, e.unwind.machine.host = e.host :=
    fun e => host_of_backdrop (backdrop_unwind e)
  cases effect with
  | next | jump | yield => rfl
  | stop e => exact hunwind e
  | fail e fault => exact hunwind (e.raise fault)

/-- The count of instructions after one more: a look at the interrupt starts it again. -/
def ticksAfter (m : Machine) (i : Instruction) : Nat :=
  if pollsAt { m with ticks := m.ticks + 1 } i then 0 else m.ticks + 1

theorem host_step (m : Machine) (p : Program) (i : Instruction) :
    (m.step p i).machine.host = (m.ticksAfter i, m.interrupt, m.settings) := by
  unfold step ticksAfter
  dsimp only
  split
  · split
    · rfl
    · exact host_execute _ p i
  · exact host_execute _ p i

/-- Only instructions are counted, and what the host has chosen stays. -/
theorem host_dispatch (p : Program) (m : Machine) :
    (dispatch p m).machine.host =
      ((instruction? p m).elim m.ticks m.ticksAfter, m.interrupt, m.settings) := by
  rcases standing p m with hfinished | ⟨hrunning, hat⟩ | ⟨i, hrunning, hat⟩
  · rw [dispatch_finished hfinished, instruction?, if_pos hfinished]
    rfl
  · rw [dispatch_outside hrunning hat, host_of_backdrop (backdrop_unwind m), instruction?, hrunning,
      hat]
    rfl
  · rw [dispatch_at hrunning hat, host_follow, host_step,
      instruction?_eq_some.mpr ⟨hrunning, hat⟩]
    rfl

variable {signals : Nat → Signals} {k n : Nat}

theorem settings_course (p : Program) (m : Machine) (signals : Nat → Signals) (n : Nat) :
    (course p m signals n).settings = m.settings := by
  induction n with
  | zero => rfl
  | succ n ih =>
    have hnext := host_dispatch p ((course p m signals n).withSignals (signals n))
    exact (congrArg (·.2.2) hnext).trans ih

/-- The count of a run after one more dispatch. -/
theorem ticks_succ (p : Program) (m : Machine) (signals : Nat → Signals) (n : Nat) :
    (course p m signals (n + 1)).ticks =
      (instruction? p (course p m signals n)).elim (course p m signals n).ticks
        (course p m signals n).ticksAfter :=
  congrArg (·.1) (host_dispatch p ((course p m signals n).withSignals (signals n)))

/-- The most instructions that pass without a look at the interrupt, and one. -/
def interval (m : Machine) : Nat :=
  max m.settings.pollInterval.toNat 1

/-- The count stays below the interval. -/
theorem ticks_course (hzero : m.ticks = 0) (p : Program) (signals : Nat → Signals) (n : Nat) :
    (course p m signals n).ticks < m.interval := by
  induction n with
  | zero =>
    rw [course, hzero, interval]
    omega
  | succ n ih =>
    rw [ticks_succ]
    cases instruction? p (course p m signals n) with
    | none => exact ih
    | some i =>
      rw [Option.elim_some, ticksAfter]
      split
      · rw [interval]
        omega
      · rename_i hpolls
        simp only [pollsAt, Bool.or_eq_true, decide_eq_true_eq, not_or, Nat.not_le] at hpolls
        rw [settings_course] at hpolls
        rw [interval]
        omega

/-- How many of `d` dispatches, from dispatch `n` on, come to an instruction. -/
def instructionsIn (p : Program) (m : Machine) (signals : Nat → Signals) (n d : Nat) : Nat :=
  (List.range' n d).countP fun j => (instruction? p (course p m signals j)).isSome

/-- Without a look at the interrupt every instruction is counted. -/
theorem ticks_of_unpolled {d : Nat} (h : ∀ j < d, ¬ Polls p (course p m signals (n + j))) :
    (course p m signals (n + d)).ticks =
      (course p m signals n).ticks + instructionsIn p m signals n d := by
  induction d with
  | zero => rfl
  | succ d ih =>
    have hlast := h d (Nat.lt_succ_self d)
    rw [← Nat.add_assoc, ticks_succ, ih fun j hj => h j (Nat.lt_succ_of_lt hj), instructionsIn,
      instructionsIn, List.range'_concat, List.countP_append, List.countP_singleton, Nat.one_mul]
    cases hi : instruction? p (course p m signals (n + d)) with
    | none => rfl
    | some i =>
      have hpolls : pollsAt { course p m signals (n + d) with
          ticks := (course p m signals (n + d)).ticks + 1 } i ≠ true :=
        fun hpolls => hlast ⟨i, hi, hpolls⟩
      rw [Option.elim_some, ticksAfter, if_neg hpolls, ih fun j hj => h j (Nat.lt_succ_of_lt hj)]
      rfl

/-- A run looks at its interrupt in time. -/
structure Responsive (p : Program) (m : Machine) (signals : Nat → Signals) : Prop where
  /-- A count of 32 bits goes up without overflowing. -/
  bounded : ∀ n, (course p m signals n).ticks + 1 < 2 ^ 32
  /-- Among as many consecutive instructions as the interval says, one is preceded by a look at
  the interrupt. -/
  polled : ∀ n d, m.interval ≤ instructionsIn p m signals n d →
    ∃ j < d, Polls p ((course p m signals (n + j)).withSignals (signals (n + j)))

theorem responsive (hzero : m.ticks = 0) (p : Program) (signals : Nat → Signals) :
    Responsive p m signals where
  bounded := by
    intro n
    have hlt := ticks_course hzero p signals n
    have hsize := m.settings.pollInterval.toNat_lt
    rw [interval] at hlt
    omega
  polled := by
    intro n d hcount
    by_contra hnone
    have hunpolled : ∀ j < d, ¬ Polls p (course p m signals (n + j)) :=
      fun j hj hpolls => hnone ⟨j, hj, hpolls⟩
    have hticks := ticks_of_unpolled hunpolled
    have hlt := ticks_course hzero p signals (n + d)
    omega

/-! ## Winding up -/

/-- Whatever its instruction, the machine goes to the branches with the fault of a cancellation. -/
structure GivesUp (p : Program) (m : Machine) (e : Machine) : Prop where
  ending : ending? p m = some e
  running : e.finished = false
  fault : ∃ reason, e.fault = some (.canceled reason)
  branches : e.branches = m.branches

/-- The interrupt has tripped: the instruction is not carried out. -/
theorem givesUp_of_canceled (hrunning : m.finished = false) (hat : p.at? m.pc = some i)
    (hstep : m.step p i = .fail { m with ticks := 0 } (.canceled reason)) :
    GivesUp p m (raise { m with ticks := 0 } (.canceled reason)) :=
  ⟨ending?_of_fail hrunning hat hstep, hrunning, ⟨reason, rfl⟩, rfl⟩

/-- A look at an interrupt that has tripped stops the instruction. -/
theorem Trips.canceled (h : Trips p m) :
    ∃ i reason, m.finished = false ∧ p.at? m.pc = some i ∧
      m.step p i = .fail { m with ticks := 0 } (.canceled reason) := by
  obtain ⟨⟨i, hi, hpolls⟩, reason, htripped⟩ := h
  obtain ⟨hrunning, hat⟩ := instruction?_eq_some.mp hi
  refine ⟨i, reason, hrunning, hat, ?_⟩
  replace htripped : tripped? { m with ticks := 0 } = some reason := htripped
  rw [step, if_pos hpolls]
  dsimp only
  rw [htripped]

/-- A branch that is taken up for a cancellation is given up, whether or not the interrupt is looked
at again. -/
theorem canceled_resume (hrunning : m.finished = false) (hset : m.resuming = true)
    (hfault : m.fault = some (.canceled reason)) (hat : p.at? m.pc = some i)
    (hkind : i.branchKind?.isSome) : ∃ e, GivesUp p m e := by
  rcases step_eq m p i with ⟨ticks, hstep⟩ | ⟨again, -, hstep⟩
  · have hnot : i.handles (.canceled reason) = false := by
      cases i <;> rfl
    rw [execute_unhandled (m := { m with ticks }) hset hfault hkind hnot] at hstep
    exact ⟨_, ending?_of_stop hrunning hat hstep, hrunning, ⟨reason, hfault⟩, rfl⟩
  · exact ⟨_, givesUp_of_canceled hrunning hat hstep⟩

/-- A pending branch lies where the instruction that left it behind is. -/
theorem branch_course (hstart : m.Coherent) (hnone : m.branches = [])
    (hb : b ∈ (course p m signals n).branches) :
    ∃ i, p.at? b.pc = some i ∧ i.branchKind?.isSome := by
  obtain ⟨newer, older, hbranches⟩ := List.append_of_mem hb
  obtain ⟨k, -, -, i, hat, hkind⟩ := remembers_course hstart hnone n b older ⟨newer, hbranches.symm⟩
  exact ⟨i, hat, by rw [hkind]; rfl⟩

/-- After `d` dispatches of winding up, the run still goes to the branches with a cancellation, and
`left` of them are left. -/
structure Winding (p : Program) (m : Machine) (signals : Nat → Signals) (n d left : Nat) :
    Prop where
  quiet : Quiet p m signals n d
  givesUp : ∃ e, GivesUp p ((course p m signals (n + d)).withSignals (signals (n + d))) e
  left : (course p m signals (n + d)).branches.length = left

/-- One more branch is given up. -/
theorem Winding.succ {d left : Nat} (h : Winding p m signals n d (left + 1)) (hstart : m.Coherent)
    (hnone : m.branches = []) : Winding p m signals n (d + 1) left := by
  obtain ⟨e, hgives⟩ := h.givesUp
  obtain ⟨b, older, hbranches⟩ := List.exists_cons_of_length_eq_add_one h.left
  have he : e.branches = b :: older := hgives.branches.trans hbranches
  have hmem : b ∈ (course p m signals (n + d)).branches := by
    rw [hbranches]
    exact List.mem_cons_self
  obtain ⟨i, hat, hkind⟩ := branch_course hstart hnone hmem
  obtain ⟨reason, hfault⟩ := hgives.fault
  have hnext := course_takeUp hgives.ending he
  have hlength : older.length = left := by
    have hleft := h.left
    rw [hbranches] at hleft
    simpa using hleft
  refine ⟨h.quiet.extend ?_ ?_ ?_, ?_, ?_⟩
  · rw [outcome, dispatch_of_ending? hgives.ending, unwind_cons he]
    exact ⟨_, rfl⟩
  · intro id argc hcall
    rw [hnext] at hcall
    cases hcall.symm.trans hat
    cases hkind
  · rw [h.left, hnext]
    show older.length < left + 1
    omega
  · rw [← Nat.add_assoc, hnext]
    exact canceled_resume hgives.running rfl hfault hat hkind
  · rw [← Nat.add_assoc, hnext]
    exact hlength

theorem winding_course (hstart : m.Coherent) (hnone : m.branches = [])
    (htrips : Trips p ((course p m signals n).withSignals (signals n))) {d left : Nat}
    (hpending : (course p m signals n).branches.length = d + left) :
    Winding p m signals n d left := by
  induction d generalizing left with
  | zero =>
    obtain ⟨i, reason, hrunning, hat, hstep⟩ := htrips.canceled
    exact ⟨.zero p m signals n, ⟨_, givesUp_of_canceled hrunning hat hstep⟩,
      hpending.trans (Nat.zero_add left)⟩
  | succ d ih => exact (ih (by omega)).succ hstart hnone

/-- Dispatch `n` of a run finds the interrupt tripped, with so many branches pending: they are given
up one by one, and the pull ends with the cancellation. -/
structure WindsUp (p : Program) (m : Machine) (signals : Nat → Signals) (n pending : Nat) :
    Prop where
  quiet : Quiet p m signals n pending
  /-- The pull that is under way gives the cancellation. -/
  gives : ∃ m' reason,
    outcome p m signals (n + pending) = .done m' (some (.error (.canceled reason))) ∧
      m'.branches = []
  /-- So it does as a single pull, if nobody changes the signals in between. -/
  pull : (∀ j < pending, (course p m signals (n + j + 1)).signals = signals (n + j + 1)) →
    pull p ((course p m signals n).withSignals (signals n)) (pending + 1) =
      outcome p m signals (n + pending)
  /-- Every later pull gives nothing. -/
  exhausted : ∀ k, n + pending < k → ∃ m', outcome p m signals k = .done m' none
  noValue : ∀ k, n ≤ k → ∀ m' v, outcome p m signals k ≠ .done m' (some (.ok v))
  /-- No recovering branch catches the cancellation. -/
  noRecovery : ∀ k, n ≤ k → ∀ target,
    instruction? p (course p m signals k) = some (.forkOpt target) →
    ∀ e pc, ((course p m signals k).withSignals (signals k)).step p (.forkOpt target) ≠ .jump e pc
  /-- No labeled branch absorbs it. -/
  noAbsorption : ∀ k, n ≤ k → ∀ label,
    instruction? p (course p m signals k) = some (.forkLabel label) →
    ∀ e, ((course p m signals k).withSignals (signals k)).step p (.forkLabel label) = .stop e →
      e.fault.isSome
  /-- No native function is called. -/
  noCall : ∀ k, n ≤ k → ∀ id argc,
    ¬ CarriesOut p ((course p m signals k).withSignals (signals k)) (.callNative id argc)

/-- What a dispatch of a run that winds up can be: one that gives up a branch, or the last one, or
one after that. -/
theorem windsUp_cases (hstart : m.Coherent) (hnone : m.branches = [])
    (htrips : Trips p ((course p m signals n).withSignals (signals n))) (hle : n ≤ k) :
    (∃ d left, k = n + d ∧ Winding p m signals n d left) ∨
      (course p m signals k).finished = true := by
  generalize hpending : (course p m signals n).branches.length = pending
  by_cases hk : k ≤ n + pending
  · refine .inl ⟨k - n, pending - (k - n), by omega, ?_⟩
    exact winding_course hstart hnone htrips (by omega)
  -- the last dispatch has no branch left
  · have hlast : Winding p m signals n pending 0 := winding_course hstart hnone htrips hpending
    obtain ⟨e, hgives⟩ := hlast.givesUp
    have hnil : e.branches = [] := hgives.branches.trans (List.length_eq_zero_iff.mp hlast.left)
    right
    apply finished_course (n := n + pending + 1) _ (by omega)
    rw [course, dispatch_of_ending? hgives.ending, unwind_nil hnil]
    rfl

/-- While a run winds up, the instruction that it comes to ends the continuation with the
cancellation. -/
theorem Winding.ended {d left : Nat} (h : Winding p m signals n d left)
    (hi : instruction? p (course p m signals (n + d)) = some i) :
    ∃ e reason, (((course p m signals (n + d)).withSignals (signals (n + d))).step p i).ended? =
      some e ∧ e.fault = some (.canceled reason) := by
  obtain ⟨e, hgives⟩ := h.givesUp
  obtain ⟨reason, hfault⟩ := hgives.fault
  obtain ⟨hrunning, hat⟩ := instruction?_eq_some.mp hi
  have hending := ending?_at (m := (course p m signals (n + d)).withSignals (signals (n + d)))
    hrunning hat
  exact ⟨e, reason, hending.symm.trans hgives.ending, hfault⟩

theorem windsUp_course (hstart : m.Coherent) (hnone : m.branches = [])
    (htrips : Trips p ((course p m signals n).withSignals (signals n))) :
    WindsUp p m signals n (course p m signals n).branches.length := by
  have hcases := fun k => windsUp_cases (k := k) hstart hnone htrips
  generalize hpending : (course p m signals n).branches.length = pending
  have hwound : Winding p m signals n pending 0 := winding_course hstart hnone htrips hpending
  obtain ⟨hquiet, ⟨e, hgives⟩, hleft⟩ := hwound
  obtain ⟨reason, hfault⟩ := hgives.fault
  have hnil : e.branches = [] := hgives.branches.trans (List.length_eq_zero_iff.mp hleft)
  have hlast : outcome p m signals (n + pending) =
      .done { e with fault := none, finished := true } (some (.error (.canceled reason))) := by
    rw [outcome, dispatch_of_ending? hgives.ending, unwind_nil hnil, hfault]
    rfl
  have hover : ∀ k, (course p m signals k).finished = true →
      outcome p m signals k = .done ((course p m signals k).withSignals (signals k)) none :=
    fun k hfinished => dispatch_finished hfinished
  -- where the run is over, there is no instruction
  have hnever : ∀ k i, n ≤ k → instruction? p (course p m signals k) = some i →
      ∃ d left, k = n + d ∧ Winding p m signals n d left := by
    intro k i hle hi
    rcases hcases k hle with hwinding | hfinished
    · exact hwinding
    · rw [instruction?, if_pos hfinished] at hi
      cases hi
  refine ⟨hquiet, ⟨_, reason, hlast, hnil⟩, fun hsame => pull_of_quiet hquiet hsame, ?_, ?_, ?_, ?_,
    ?_⟩
  · intro k hk
    have hfirst : (course p m signals (n + pending + 1)).finished = true := by
      rw [course, show dispatch p _ = _ from hlast]
      rfl
    exact ⟨_, hover k (finished_course hfirst hk)⟩
  · intro k hle m' v hvalue
    rcases hcases k hle with ⟨d, left, rfl, hwinding⟩ | hfinished
    · obtain ⟨e', hgives'⟩ := hwinding.givesUp
      obtain ⟨reason', hfault'⟩ := hgives'.fault
      rw [outcome, dispatch_of_ending? hgives'.ending] at hvalue
      cases hb : e'.branches with
      | cons b older =>
        rw [unwind_cons hb] at hvalue
        cases hvalue
      | nil =>
        rw [unwind_nil hb, hfault'] at hvalue
        cases hvalue
    · rw [hover k hfinished] at hvalue
      cases hvalue
  · intro k hle target hi e' pc hjump
    obtain ⟨d, left, rfl, hwinding⟩ := hnever k _ hle hi
    obtain ⟨_, _, hended, -⟩ := hwinding.ended hi
    rw [hjump] at hended
    cases hended
  · intro k hle label hi e' hstop
    obtain ⟨d, left, rfl, hwinding⟩ := hnever k _ hle hi
    obtain ⟨_, _, hended, hcanceled⟩ := hwinding.ended hi
    rw [hstop] at hended
    cases hended
    rw [hcanceled]
    rfl
  · intro k hle id argc hcarries
    have hi := instruction?_eq_some.mpr ⟨hcarries.running, hcarries.instruction⟩
    obtain ⟨d, left, rfl, hwinding⟩ := hnever k _ hle hi
    -- the first look stops its instruction, and no branch is taken up at a native call
    cases d with
    | zero =>
      obtain ⟨j, again, -, hat, hstep⟩ := htrips.canceled
      cases Option.some.inj (hat.symm.trans hcarries.instruction)
      exact hcarries.uncanceled _ again hstep
    | succ d =>
      exact hwinding.quiet.noCall (d + 1) (Nat.succ_pos d) (Nat.le_refl _) id argc
        hcarries.instruction

/-- Every run looks at its interrupt in time, and when it finds it tripped, it winds up. Nothing is
asked of the signals: it makes no difference whether the interrupt stays tripped. -/
theorem interrupt_obeyed (p : Program) (idle : Machine) (settings : Settings) (input : Value)
    (interrupt : Option Interrupt) (signals : Nat → Signals) :
    Responsive p (idle.load settings input interrupt) signals ∧
      ∀ n, Trips p ((course p (idle.load settings input interrupt) signals n).withSignals
          (signals n)) →
        WindsUp p (idle.load settings input interrupt) signals n
          (course p (idle.load settings input interrupt) signals n).branches.length :=
  ⟨responsive rfl p signals,
    fun _ htrips => windsUp_course (coherent_load idle settings input interrupt) rfl htrips⟩

/-- An endless loop in a branch that recovers. -/
def spinningProgram : Program where
  name := "spinning"
  code := #[.scope 0 0, .forkOpt 3, .jump 2, .const (.string "caught"), .ret]
  functions := #[]
  lines := #[]
  natives := {}

/-- The interrupt is looked at before every fourth instruction. It trips in the loop, and the
recovering branch does not catch it. -/
theorem interrupt_obeyed_spinningProgram :
    Trips spinningProgram ((course spinningProgram (load {} { pollInterval := 4 } .null
        (some ⟨7, none⟩)) (fun _ => ⟨[7], 0⟩) 3).withSignals ⟨[7], 0⟩) ∧
      Responsive spinningProgram (load {} { pollInterval := 4 } .null (some ⟨7, none⟩))
        (fun _ => ⟨[7], 0⟩) ∧
      WindsUp spinningProgram (load {} { pollInterval := 4 } .null (some ⟨7, none⟩))
        (fun _ => ⟨[7], 0⟩) 3 1 := by
  have htrips : Trips spinningProgram ((course spinningProgram (load {} { pollInterval := 4 } .null
      (some ⟨7, none⟩)) (fun _ => ⟨[7], 0⟩) 3).withSignals ⟨[7], 0⟩) :=
    ⟨⟨.jump 2, rfl, rfl⟩, .requested, rfl⟩
  obtain ⟨hresponsive, hwinds⟩ := interrupt_obeyed spinningProgram {} { pollInterval := 4 } .null
    (some ⟨7, none⟩) (fun _ => ⟨[7], 0⟩)
  exact ⟨htrips, hresponsive, hwinds 3 htrips⟩

end Machine
end QueryMachine
