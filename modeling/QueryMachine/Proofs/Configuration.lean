import QueryMachine.Proofs.Registers
import QueryMachine.Proofs.PlainSimulation

/-!
# Settings do not show

How large the register file is at the start, and how often the interrupt is looked at, makes no
difference to what a run gives.

* `Accord`: against another backdrop, a machine finds the same in every register, although the
  register file may be longer or shorter;
* `execute_accord`: where variables are resolved alike, an instruction does the same against both,
  and the backdrops stay in accord;
* `Agree`: variables go on being resolved alike, because the register files have the same size or
  because both hold every activation of a well-addressed program. It is kept by every dispatch
  (`Agree.dispatch`) and every pull (`Agree.pull`);
* `settings_unobservable`: so two runs of a well-addressed program over the same input give the
  same items, whatever their settings, as long as no interrupt trips.
-/

namespace QueryMachine

namespace Machine

variable {m m' e : Machine} {b b' : Backdrop} {p : Program} {i : Instruction} {a : Address}

/-! ## Registers that hold the same -/

/-- Every register of the backdrop holds what it holds in the machine. Registers beyond a register
file count as null. -/
structure Accord (m : Machine) (b : Backdrop) : Prop where
  offset : b.offset = m.offset
  registers : ∀ r, b.registers.getD r default = m.registers.getD r default

/-- As the machine went from `m` to `m'`, its backdrop went from `b` to `b'`, and is in accord. -/
structure InStep (m : Machine) (b : Backdrop) (m' : Machine) (b' : Backdrop) : Prop where
  accord : Accord m' b'
  interrupt : b'.interrupt = b.interrupt
  size : b.registers.size = m.registers.size → b'.registers.size = m'.registers.size

/-- Nothing happens to the registers, but a flag may be raised. -/
theorem Accord.keep (h : Accord m b) (signals : Signals) {own : Signals}
    (hkept : m'.backdrop = { m.backdrop with signals := own }) :
    InStep m b m' { b with signals } := by
  have hregisters : m'.registers = m.registers := congrArg Backdrop.registers hkept
  have hoffset : m'.offset = m.offset := congrArg Backdrop.offset hkept
  refine ⟨⟨h.offset.trans hoffset.symm, ?_⟩, rfl, ?_⟩ <;> rw [hregisters]
  · exact h.registers
  · exact id

/-- Where the run goes on from an instruction makes no difference to the registers. -/
theorem InStep.goOn (h : InStep m b m' b') (he : e.backdrop = m'.backdrop) : InStep m b e b' := by
  have hregisters : e.registers = m'.registers := congrArg Backdrop.registers he
  have hoffset : e.offset = m'.offset := congrArg Backdrop.offset he
  refine ⟨⟨h.accord.offset.trans hoffset.symm, ?_⟩, h.interrupt, ?_⟩ <;> rw [hregisters]
  · exact h.accord.registers
  · exact h.size

theorem getD_setIfInBounds {registers : Array Operand} {r : Nat} (hr : r < registers.size)
    (x : Operand) (j : Nat) : (registers.setIfInBounds r x).getD j default =
      if r = j then x else registers.getD j default := by
  rw [Array.getD_eq_getD_getElem?, Array.getElem?_setIfInBounds]
  split
  · rfl
  · rw [Array.getD_eq_getD_getElem?]

theorem getD_modify {registers : Array Operand} {r : Nat} (hr : r < registers.size)
    (f : Operand → Operand) (j : Nat) : (registers.modify r f).getD j default =
      if r = j then f (registers.getD j default) else registers.getD j default := by
  rw [Array.getD_eq_getD_getElem?, Array.getD_eq_getD_getElem?, Array.getElem?_modify]
  split
  · rename_i hj
    rw [← hj, Array.getElem?_eq_getElem hr]
    rfl
  · rfl

theorem lt_size_of_register {r : Nat} (h : m.register a = .ok r) : r < m.registers.size := by
  unfold register at h
  split at h
  · cases h
  · dsimp only at h
    split at h
    · cases h
      assumption
    · cases h

/-! ## Instructions that look at the registers -/

theorem load_accord (h : Accord m b) (hregister : (m.against b).register a = m.register a) :
    (m.against b).loadVariable a = (m.loadVariable a).map (·.against b) := by
  rw [loadVariable, loadVariable, hregister]
  cases m.register a with
  | error fault => rfl
  | ok r =>
    dsimp only
    rw [show (m.against b).registers = b.registers from rfl, h.registers]
    rfl

theorem store_accord (h : Accord m b) (hregister : (m.against b).register a = m.register a) :
    ∃ b', (m.against b).storeVariable a = (m.storeVariable a).map (·.against b') ∧
      InStep m b (m.storeVariable a).machine b' := by
  rw [storeVariable, storeVariable, hregister]
  cases hr : m.register a with
  | error fault => exact ⟨b, rfl, h.keep _ rfl⟩
  | ok r =>
    dsimp only
    rw [against_popOperand]
    cases hp : m.popOperand with
    | error fault => exact ⟨b, rfl, h.keep _ rfl⟩
    | ok popped =>
      obtain ⟨x, popped⟩ := popped
      obtain ⟨t, -, rfl⟩ := popOperand_eq_ok hp
      have hown := lt_size_of_register hr
      have hother : r < b.registers.size := lt_size_of_register (hregister.trans hr)
      refine ⟨{ b with registers := b.registers.setIfInBounds r x }, rfl, ⟨h.offset, ?_⟩, rfl, ?_⟩
      · intro j
        dsimp only [Effect.machine]
        rw [getD_setIfInBounds hother, getD_setIfInBounds hown, h.registers]
      · intro hsize
        dsimp only [Effect.machine]
        rw [Array.size_setIfInBounds, Array.size_setIfInBounds, hsize]

theorem append_accord (h : Accord m b) (hregister : (m.against b).register a = m.register a) :
    ∃ b', (m.against b).appendVariable a = (m.appendVariable a).map (·.against b') ∧
      InStep m b (m.appendVariable a).machine b' := by
  rw [appendVariable, appendVariable, hregister]
  cases hr : m.register a with
  | error fault => exact ⟨b, rfl, h.keep _ rfl⟩
  | ok r =>
    dsimp only
    rw [against_popValue]
    cases hp : m.popValue with
    | error fault => exact ⟨b, rfl, h.keep _ rfl⟩
    | ok popped =>
      obtain ⟨v, popped⟩ := popped
      obtain ⟨t, -, rfl⟩ := popOperand_eq_ok (popValue_eq_ok hp)
      have hown := lt_size_of_register hr
      have hother : r < b.registers.size := lt_size_of_register (hregister.trans hr)
      dsimp only [Except.map]
      rw [show (against { m with stack := t } b).registers = b.registers from rfl, h.registers]
      -- what is appended to is the same, so both append or both fail
      split
      · refine ⟨{ b with registers := b.registers.modify r (.gather v) }, rfl, ⟨h.offset, ?_⟩, rfl,
          ?_⟩
        · intro j
          dsimp only [Effect.machine]
          rw [getD_modify hother, getD_modify hown, h.registers]
        · intro hsize
          dsimp only [Effect.machine]
          rw [Array.size_modify, Array.size_modify, hsize]
      · exact ⟨b, rfl, h.keep _ rfl⟩
      · exact ⟨b, rfl, h.keep _ rfl⟩

theorem scope_accord (h : Accord m b) (id : ScopeId) (slots programLength : Nat) :
    ∃ b', (m.against b).enterScope id slots programLength =
        (m.enterScope id slots programLength).map (·.against b') ∧
      InStep m b (m.enterScope id slots programLength).machine b' := by
  refine ⟨{ b with
    offset := m.offset + slots
    registers := growRegisters b.registers (m.offset + slots) }, ?_, ⟨rfl, ?_⟩, rfl, ?_⟩
  · rw [enterScope, enterScope, show (m.against b).offset = m.offset from h.offset]
    rfl
  · intro r
    dsimp only [enterScope, Effect.machine]
    rw [getD_growRegisters, getD_growRegisters, h.registers]
  · intro hsize
    dsimp only [enterScope, Effect.machine]
    rw [growRegisters, growRegisters, hsize]
    split
    · simp only [Array.size_append, Array.size_replicate, hsize]
    · exact hsize

/-! ## One dispatch -/

theorem blind_accord (h : Accord m b) (p : Program) (hi : i.looksBehind = false) :
    ∃ b', (m.against b).execute p i = (m.execute p i).map (·.against b') ∧
      InStep m b (m.execute p i).machine b' :=
  ⟨b, execute_against b m p hi, h.keep _ (backdrop_execute m p hi)⟩

/-- Where variables are resolved alike, an instruction does the same against both backdrops. -/
theorem execute_accord (h : Accord m b) (p : Program)
    (hregister : ∀ a, i.address? = some a → (m.against b).register a = m.register a) :
    ∃ b', (m.against b).execute p i = (m.execute p i).map (·.against b') ∧
      InStep m b (m.execute p i).machine b' := by
  cases i with
  | load a =>
    exact ⟨b, load_accord h (hregister a rfl), h.keep _ (backdrop_loadVariable m a)⟩
  | store a => exact store_accord h (hregister a rfl)
  | append a => exact append_accord h (hregister a rfl)
  | scope id slots => exact scope_accord h id slots p.length
  | callNative id argc =>
    obtain ⟨signals, hsame⟩ := against_callNative b m p.natives id argc
    obtain ⟨own, hkept⟩ := backdrop_callNative m p.natives id argc
    exact ⟨_, hsame, h.keep signals hkept⟩
  | _ => exact blind_accord h p rfl

theorem step_of_untripped (h : m.tripped? = none) (p : Program) (i : Instruction) :
    ∃ ticks, m.step p i = execute { m with ticks } p i := by
  rcases step_eq m p i with hstep | ⟨reason, htripped, -⟩
  · exact hstep
  · replace htripped : m.tripped? = some reason := htripped
    rw [h] at htripped
    cases htripped

/-- When the interrupt is looked at makes no difference while it does not trip. -/
theorem step_accord (h : Accord m b) (p : Program)
    (hregister : ∀ a, i.address? = some a → (m.against b).register a = m.register a)
    (hown : m.tripped? = none) (hother : (m.against b).tripped? = none) :
    ∃ b', (m.against b).step p i = (m.step p i).map (·.against b') ∧
      InStep m b (m.step p i).machine b' := by
  obtain ⟨ticks, hstep⟩ := step_of_untripped hown p i
  obtain ⟨ticks', hstep'⟩ := step_of_untripped hother p i
  have hcounted : Accord { m with ticks } { b with ticks := ticks' } := { h with }
  obtain ⟨b', hsame, hinStep⟩ := execute_accord hcounted p hregister
  rw [hstep, hstep']
  exact ⟨b', hsame, { hinStep with }⟩

theorem against_unwind (m : Machine) (b : Backdrop) :
    (m.against b).unwind = m.unwind.map (·.against b) := by
  rw [unwind, unwind, show (m.against b).branches = m.branches from rfl]
  cases m.branches <;> rfl

theorem against_follow (effect : Effect) (b : Backdrop) :
    follow (effect.map (·.against b)) = (follow effect).map (·.against b) := by
  cases effect with
  | next | jump | yield => rfl
  | stop m => exact against_unwind m b
  | fail m fault => exact against_unwind (m.raise fault) b

theorem backdrop_follow (effect : Effect) :
    (follow effect).machine.backdrop = effect.machine.backdrop := by
  cases effect with
  | next | jump | yield => rfl
  | stop m => exact backdrop_unwind m
  | fail m fault => exact backdrop_unwind (m.raise fault)

theorem dispatch_accord (h : Accord m b)
    (hregister : ∀ i a, p.at? m.pc = some i → i.address? = some a →
      (m.against b).register a = m.register a)
    (hown : m.tripped? = none) (hother : (m.against b).tripped? = none) :
    ∃ b', dispatch p (m.against b) = (dispatch p m).map (·.against b') ∧
      InStep m b (dispatch p m).machine b' := by
  rcases standing p m with hfinished | ⟨hrunning, hat⟩ | ⟨i, hrunning, hat⟩
  · have hfinished' : (m.against b).finished = true := hfinished
    rw [dispatch_finished hfinished, dispatch_finished hfinished']
    exact ⟨b, rfl, h.keep _ rfl⟩
  · have hrunning' : (m.against b).finished = false := hrunning
    rw [dispatch_outside hrunning hat, dispatch_outside hrunning' hat]
    exact ⟨b, against_unwind m b, h.keep _ (backdrop_unwind m)⟩
  · have hrunning' : (m.against b).finished = false := hrunning
    obtain ⟨b', hsame, hinStep⟩ := step_accord h p (fun a => hregister i a hat) hown hother
    rw [dispatch_at hrunning hat, dispatch_at hrunning' hat, hsame]
    exact ⟨b', against_follow _ b', hinStep.goOn (backdrop_follow _)⟩

/-! ## Whole runs -/

/-- Against the backdrop `b`, variables are resolved as in the machine, now and later: the register
files have the same size, or both hold every activation of a well-addressed program. -/
structure Agree (p : Program) (m : Machine) (b : Backdrop) : Prop where
  accord : Accord m b
  coherent : m.Coherent
  coherentAgainst : (m.against b).Coherent
  sizes : b.registers.size = m.registers.size ∨
    p.WellAddressed ∧ Housed p m ∧ Housed p (m.against b)

theorem Agree.register (h : Agree p m b) {pc : Nat} (hat : p.at? pc = some i)
    (ha : i.address? = some a) : (m.against b).register a = m.register a := by
  rcases h.sizes with hsize | ⟨haddr, hown, hother⟩
  · have hsize' : (m.against b).registers.size = m.registers.size := hsize
    rw [Machine.register, Machine.register, hsize']
    rfl
  · rcases hother.register_cases haddr h.coherentAgainst hat ha with
      ⟨hfind, hnone⟩ | ⟨activation, hfind, -, hsome⟩
    all_goals
      have hfind' : m.scopes.find? (·.scope == a.scope) = _ := hfind
      rcases hown.register_cases haddr h.coherent hat ha with
        ⟨hfound, hnone'⟩ | ⟨activation', hfound, -, hsome'⟩
      all_goals
        rw [hfound] at hfind'
        cases hfind'
    · rw [hnone, hnone']
    · rw [hsome, hsome']

theorem Agree.withSignals (h : Agree p m b) (own other : Signals) :
    Agree p (m.withSignals own) { b with signals := other } where
  accord := { h.accord with }
  coherent := h.coherent.withSignals own
  coherentAgainst := h.coherentAgainst.withSignals other
  sizes := h.sizes.imp id fun ⟨haddr, hown, hother⟩ => ⟨haddr, { hown with }, { hother with }⟩

theorem Agree.dispatch (h : Agree p m b) (hown : m.tripped? = none)
    (hother : (m.against b).tripped? = none) :
    ∃ b', dispatch p (m.against b) = (dispatch p m).map (·.against b') ∧
      Agree p (dispatch p m).machine b' ∧ b'.interrupt = b.interrupt := by
  obtain ⟨b', hsame, hinStep⟩ :=
    dispatch_accord h.accord (fun i a hat ha => h.register hat ha) hown hother
  have hmachine : (Machine.dispatch p (m.against b)).machine =
      (Machine.dispatch p m).machine.against b' := by
    rw [hsame, Progress.machine_map]
  refine ⟨b', hsame, ⟨hinStep.accord, (move_dispatch h.coherent p).coherent, ?_, ?_⟩,
    hinStep.interrupt⟩
  · rw [← hmachine]
    exact (move_dispatch h.coherentAgainst p).coherent
  · rw [← hmachine]
    exact h.sizes.imp hinStep.size fun ⟨haddr, hown, hother⟩ =>
      ⟨haddr, housed_dispatch hown haddr h.coherent,
        housed_dispatch hother haddr h.coherentAgainst⟩

/-- The machines that the dispatches of a pull start from. -/
def dispatched (p : Program) (m : Machine) : Nat → List Machine
  | 0 => []
  | fuel + 1 =>
    m :: match dispatch p m with
      | .running m' => dispatched p m' fuel
      | .done _ _ => []

theorem Agree.pull (h : Agree p m b) (fuel : Nat)
    (hown : ∀ m' ∈ dispatched p m fuel, m'.tripped? = none)
    (hother : ∀ m' ∈ dispatched p (m.against b) fuel, m'.tripped? = none) :
    ∃ b', pull p (m.against b) fuel = (pull p m fuel).map (·.against b') ∧
      Agree p (pull p m fuel).machine b' ∧ b'.interrupt = b.interrupt := by
  induction fuel generalizing m b with
  | zero => exact ⟨b, rfl, h, rfl⟩
  | succ fuel ih =>
    obtain ⟨b', hsame, hagree, hinterrupt⟩ :=
      h.dispatch (hown m List.mem_cons_self) (hother _ List.mem_cons_self)
    rw [dispatched, hsame] at hother
    rw [dispatched] at hown
    rw [Machine.pull, Machine.pull, hsame]
    cases hd : Machine.dispatch p m with
    | done m' item =>
      rw [hd] at hagree
      exact ⟨b', rfl, hagree, hinterrupt⟩
    | running m' =>
      rw [hd] at hagree hown hother
      obtain ⟨b'', hpull, hfinal, hkept⟩ := ih hagree
        (fun m hm => hown m (List.mem_cons_of_mem _ hm))
        (fun m hm => hother m (List.mem_cons_of_mem _ hm))
      exact ⟨b'', hpull, hfinal, hkept.trans hinterrupt⟩

/-- Without an interrupt, nothing trips. -/
theorem untripped_of_none (h : m.Coherent) (hi : m.interrupt = none) (p : Program) (fuel : Nat) :
    ∀ m' ∈ dispatched p m fuel, m'.tripped? = none := by
  induction fuel generalizing m with
  | zero =>
    intro m' hm
    cases hm
  | succ fuel ih =>
    have hmove := move_dispatch h p
    intro m' hm
    rw [dispatched] at hm
    cases hm with
    | head => rw [tripped?, hi, Option.bind_none]
    | tail _ hm =>
      cases hd : Machine.dispatch p m with
      | done next item =>
        rw [hd] at hm
        cases hm
      | running next =>
        rw [hd] at hm hmove
        exact ih hmove.coherent (hmove.interrupt.trans hi) m' hm

/-! ## What the host sees -/

/-- The machines that the dispatches of a host's pulls start from. -/
def dispatchedIn (p : Program) (m : Machine) : List (Signals × Nat) → List Machine
  | [] => []
  | (signals, fuel) :: later =>
    dispatched p (m.withSignals signals) fuel ++
      dispatchedIn p (Machine.pull p (m.withSignals signals) fuel).machine later

/-- A run goes without an interrupt, or with one that has never tripped when an instruction is
dispatched. -/
def Undisturbed (p : Program) (m : Machine) (script : List (Signals × Nat)) : Prop :=
  m.interrupt = none ∨ ∀ m' ∈ dispatchedIn p m script, m'.tripped? = none

theorem interrupt_pull (h : m.Coherent) (p : Program) (fuel : Nat) :
    (Machine.pull p m fuel).machine.interrupt = m.interrupt := by
  have hkept : ∀ e : Machine, e.Coherent ∧ e.interrupt = m.interrupt →
      (Machine.dispatch p e).machine.Coherent ∧
        (Machine.dispatch p e).machine.interrupt = m.interrupt := by
    rintro e ⟨hcoherent, hi⟩
    have hmove := move_dispatch hcoherent p
    exact ⟨hmove.coherent, hmove.interrupt.trans hi⟩
  exact (pull_keeps (P := fun e => e.Coherent ∧ e.interrupt = m.interrupt) hkept ⟨h, rfl⟩ fuel).2

theorem Undisturbed.cons {signals : Signals} {fuel : Nat} {later : List (Signals × Nat)}
    (hscript : Undisturbed p m ((signals, fuel) :: later)) (h : m.Coherent) :
    (∀ m' ∈ dispatched p (m.withSignals signals) fuel, m'.tripped? = none) ∧
      Undisturbed p (Machine.pull p (m.withSignals signals) fuel).machine later := by
  have hstart := h.withSignals signals
  rcases hscript with hnone | huntripped
  · exact ⟨untripped_of_none hstart hnone p fuel, .inl ((interrupt_pull hstart p fuel).trans hnone)⟩
  · exact ⟨fun m' hm => huntripped m' (List.mem_append_left _ hm),
      .inr fun m' hm => huntripped m' (List.mem_append_right _ hm)⟩

/-- Machines that resolve their variables alike give the same items to hosts that can afford the
same numbers of dispatches. -/
theorem Agree.turns (h : Agree p m b) {script script' : List (Signals × Nat)}
    (hfuel : script'.map (·.2) = script.map (·.2)) (hown : Undisturbed p m script)
    (hother : Undisturbed p (m.against b) script') :
    turns p (m.against b) script' = turns p m script := by
  induction script generalizing m b script' with
  | nil =>
    obtain rfl := List.map_eq_nil_iff.mp hfuel
    rfl
  | cons turn later ih =>
    obtain ⟨signals, fuel⟩ := turn
    obtain ⟨⟨signals', fuel'⟩, later', rfl, heq, hlater⟩ := List.map_eq_cons_iff.mp hfuel
    obtain rfl : fuel' = fuel := heq
    obtain ⟨hpulled, hrest⟩ := hown.cons h.coherent
    obtain ⟨hpulled', hrest'⟩ := hother.cons h.coherentAgainst
    obtain ⟨b', hsame, hagree, -⟩ := (h.withSignals signals signals').pull fuel' hpulled hpulled'
    replace hsame : Machine.pull p ((m.against b).withSignals signals') fuel' = _ := hsame
    rw [hsame, Progress.machine_map] at hrest'
    have hnext := ih hagree hlater hrest hrest'
    rw [Machine.turns, Machine.turns, hsame]
    cases hp : Machine.pull p (m.withSignals signals) fuel' with
    | running next =>
      rw [hp] at hnext
      exact congrArg (Turn.paused :: ·) hnext
    | done next item =>
      rw [hp] at hnext
      exact congrArg (Turn.gave item :: ·) hnext

/-- Whatever the settings of two runs of a well-addressed program over the same input, and whether
or not they have interrupts, they give the same items as long as no interrupt trips. -/
theorem settings_unobservable (haddr : p.WellAddressed) (idle idle' : Machine)
    (settings settings' : Settings) (input : Value) (interrupt interrupt' : Option Interrupt)
    {script script' : List (Signals × Nat)} (hfuel : script'.map (·.2) = script.map (·.2))
    (h : Undisturbed p (idle.load settings input interrupt) script)
    (h' : Undisturbed p (idle'.load settings' input interrupt') script') :
    turns p (idle'.load settings' input interrupt') script' =
      turns p (idle.load settings input interrupt) script := by
  have hhoused := housed_load p idle settings input interrupt
  have hhoused' := housed_load p idle' settings' input interrupt'
  have hagree : Agree p (idle.load settings input interrupt)
      (idle'.load settings' input interrupt').backdrop := by
    refine ⟨⟨rfl, fun r => ?_⟩, coherent_load idle settings input interrupt,
      coherent_load idle' settings' input interrupt', .inr ⟨haddr, hhoused, hhoused'⟩⟩
    -- no register has been taken yet
    exact (hhoused'.blank r (Nat.zero_le r)).trans (hhoused.blank r (Nat.zero_le r)).symm
  exact hagree.turns hfuel h h'

/-- Collects the values of a container in an array. -/
def collectingProgram : Program where
  name := "collecting"
  code := #[.scope 0 2, .store ⟨0, 1⟩, .push (.array #[]), .store ⟨0, 0⟩, .fork 9, .load ⟨0, 1⟩,
    .each, .append ⟨0, 0⟩, .backtrack, .load ⟨0, 0⟩, .ret]
  functions := #[]
  lines := #[]
  natives := {}

/-- One run starts without registers and looks at its interrupt before every instruction; the other
has no interrupt. -/
theorem settings_unobservable_collectingProgram :
    collectingProgram.WellAddressed ∧
    turns collectingProgram (load {} {} (.array #[.null, .bool true]) none)
      [({}, 12), ({}, 20), ({}, 20)] =
        [.paused, .gave (some (.ok (.array #[.null, .bool true]))), .gave none] ∧
    turns collectingProgram
      (load {} { pollInterval := 0, initialRegisters := 0 } (.array #[.null, .bool true])
        (some ⟨1, none⟩)) [(⟨[2], 5⟩, 12), (⟨[2], 8⟩, 20), (⟨[3, 2], 9⟩, 20)] =
      turns collectingProgram (load {} {} (.array #[.null, .bool true]) none)
        [({}, 12), ({}, 20), ({}, 20)] :=
  ⟨by decide, by with_unfolding_all rfl,
    settings_unobservable (by decide) {} {} {} { pollInterval := 0, initialRegisters := 0 }
      (.array #[.null, .bool true]) none (some ⟨1, none⟩) rfl (.inl rfl)
      (.inr (by decide +kernel))⟩

end Machine
end QueryMachine
