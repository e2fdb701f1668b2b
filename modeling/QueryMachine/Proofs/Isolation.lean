import QueryMachine.Proofs.Registers

/-!
# Every activation has registers of its own

An activation owns the registers that its scope instruction has taken. They stay its own for the
whole run, even when a branch that is taken up gives the activation up.

* `execute_inBounds`: only looking up a variable can miss the register file;
* `allotted_course`: every activation that a machine of a run can turn to was allotted its
  registers by a dispatch of the run;
* `registers_isolated`: so the registers of two activations are apart, a variable is a register of
  the activation that it was found in, nothing else writes a register, and a register that was not
  written since holds null and is read as null.
-/

namespace QueryMachine

open RewindStack

/-- Whether a register was looked for beyond the register file. -/
def Fault.isOutOfBounds : Fault → Bool
  | .registerOutOfBounds _ => true
  | _ => false

/-- Whether an instruction looked for a register beyond the register file. -/
def Effect.isOutOfBounds : Effect → Bool
  | .fail _ fault => fault.isOutOfBounds
  | _ => false

/-- Whether an activation with so many variables has taken the register `r`. -/
def Activation.Owns (activation : Activation) (slots r : Nat) : Prop :=
  activation.base ≤ r ∧ r < activation.base + slots

namespace Machine

variable {m m' : Machine} {p : Program} {i : Instruction} {a : Address}

/-! ## Registers are found -/

section InBounds

variable {fault : Fault}

theorem inBounds_popOperand (hp : m.popOperand = .error fault) : fault.isOutOfBounds = false := by
  unfold popOperand at hp
  split at hp <;> cases hp
  rfl

theorem inBounds_toValue {x : Operand} (hx : x.toValue = .error fault) :
    fault.isOutOfBounds = false := by
  cases x <;> cases hx <;> rfl

theorem inBounds_popValue (hp : m.popValue = .error fault) : fault.isOutOfBounds = false := by
  unfold popValue at hp
  split at hp
  · rename_i hpop
    cases hp
    exact inBounds_popOperand hpop
  · split at hp <;> cases hp
    rename_i hx
    exact inBounds_toValue hx

theorem inBounds_popValues {count : Nat} (hp : m.popValues count = .error fault) :
    fault.isOutOfBounds = false := by
  induction count generalizing m with
  | zero => cases hp
  | succ count ih =>
    rw [popValues] at hp
    split at hp
    · rename_i hv
      cases hp
      exact inBounds_popValue hv
    · split at hp <;> cases hp
      rename_i hrest
      exact ih hrest

theorem inBounds_popPairs {following : List (String × Value)} {count : Nat}
    (hp : m.popPairs following count = .error fault) : fault.isOutOfBounds = false := by
  induction count generalizing m following with
  | zero => cases hp
  | succ count ih =>
    rw [popPairs] at hp
    split at hp
    · rename_i hv
      cases hp
      exact inBounds_popValue hv
    · split at hp
      · rename_i hk
        cases hp
        exact inBounds_popValue hk
      · exact ih hp
      · cases hp
        rfl

theorem inBounds_entriesOf {x : Operand} (hx : m.entriesOf x = .error fault) :
    fault.isOutOfBounds = false := by
  cases x with
  | value v =>
    rw [entriesOf] at hx
    split at hx
    · cases hx
      rfl
    · split at hx <;> cases hx
      rfl
  | closure pc scope =>
    cases hx
    rfl
  | entries rest => cases hx

theorem inBounds_popCall {argc : Nat} (hp : m.popCall argc = .error fault) :
    fault.isOutOfBounds = false := by
  unfold popCall at hp
  split at hp
  · rename_i hv
    cases hp
    exact inBounds_popValue hv
  · split at hp <;> cases hp
    rename_i hrest
    exact inBounds_popValues hrest

theorem inBounds_recordStep {role : Role} {args : List Value} {output : Value}
    (hr : m.recordStep role args output = .error fault) : fault.isOutOfBounds = false := by
  unfold recordStep at hr
  split at hr
  · cases hr
  · split at hr
    · split at hr <;> cases hr
      rfl
    · cases hr

theorem inBounds_ofFailure (failure : NativeFailure) :
    (Fault.ofFailure failure).isOutOfBounds = false := by
  cases failure <;> rfl

end InBounds

theorem inBounds_leaveScope (m : Machine) : m.leaveScope.isOutOfBounds = false := by
  unfold leaveScope
  split
  · rfl
  · split
    · rfl
    · dsimp only
      split
      · split
        · rename_i hv
          exact inBounds_popValue hv
        · rfl
      · rfl

theorem inBounds_iterate (m : Machine) : m.iterate.isOutOfBounds = false := by
  unfold iterate
  split
  · rfl
  · split
    · rename_i hpop
      exact inBounds_popOperand hpop
    · split
      · rename_i hx
        exact inBounds_entriesOf hx
      · rfl
      · rfl

theorem inBounds_openPath (m : Machine) : m.openPath.isOutOfBounds = false := by
  unfold openPath
  split
  · rfl
  · split
    · rename_i hx
      exact inBounds_toValue hx
    · rfl

theorem inBounds_closePath (m : Machine) : m.closePath.isOutOfBounds = false := by
  unfold closePath
  split
  · rfl
  · split
    · rename_i hv
      exact inBounds_popValue hv
    · split
      · rfl
      · dsimp only
        split <;> rfl

theorem inBounds_callNative (m : Machine) (table : NativeTable) (id : NativeId) (argc : Nat) :
    (m.callNative table id argc).isOutOfBounds = false := by
  unfold callNative
  split
  · rename_i hcall
    exact inBounds_popCall hcall
  · dsimp only
    split
    · exact inBounds_ofFailure _
    · split
      · rename_i hr
        exact inBounds_recordStep hr
      · rfl

/-- Only looking up a variable can miss the register file. -/
theorem execute_inBounds (m : Machine) (p : Program)
    (h : ∀ a ∈ i.address?, ∀ fault, m.register a = .error fault → fault.isOutOfBounds = false) :
    (m.execute p i).isOutOfBounds = false := by
  cases i with
  | nop | push | backtrack | jump | call | pushPc | scope => rfl
  | pop =>
    rw [execute, dropTop]
    split
    · rename_i hpop
      exact inBounds_popOperand hpop
    · rfl
  | dup =>
    rw [execute, duplicate]
    split <;> rfl
  | swap =>
    rw [execute, exchange]
    split
    · rename_i hpop
      exact inBounds_popOperand hpop
    · split
      · rename_i hpop
        exact inBounds_popOperand hpop
      · rfl
  | const v =>
    rw [execute, replaceTop]
    split
    · rename_i hpop
      exact inBounds_popOperand hpop
    · rfl
  | object pairs =>
    rw [execute, buildObject]
    split
    · rename_i hpairs
      exact inBounds_popPairs hpairs
    · rfl
  | jumpIfNot target =>
    rw [execute, jumpUnless]
    split
    · rename_i hv
      exact inBounds_popValue hv
    · split <;> rfl
  | callPc =>
    rw [execute, callClosure]
    split
    · rename_i hpop
      exact inBounds_popOperand hpop
    · rfl
    · rfl
  | fork target =>
    rw [execute, fork]
    split
    · rfl
    · split <;> rfl
  | forkOpt target =>
    rw [execute, forkOpt]
    split
    · rfl
    · split
      · rfl
      · split <;> rfl
  | forkLabel label =>
    rw [execute, forkLabel]
    split
    · rfl
    · split <;> rfl
  | each => exact inBounds_iterate m
  | ret => exact inBounds_leaveScope m
  | pathBegin => exact inBounds_openPath m
  | pathEnd => exact inBounds_closePath m
  | callNative id argc => exact inBounds_callNative m p.natives id argc
  | load a =>
    rw [execute, loadVariable]
    split
    · exact h a rfl _ ‹_›
    · rfl
  | store a =>
    rw [execute, storeVariable]
    split
    · exact h a rfl _ ‹_›
    · split
      · rename_i hpop
        exact inBounds_popOperand hpop
      · rfl
  | append a =>
    rw [execute, appendVariable]
    split
    · exact h a rfl _ ‹_›
    · split
      · rename_i hv
        exact inBounds_popValue hv
      · split <;> rfl

/-- No instruction of a well-addressed program misses the register file. -/
theorem Housed.step_inBounds (h : Housed p m) (haddr : p.WellAddressed) (hc : m.Coherent) {pc : Nat}
    (hat : p.at? pc = some i) : (m.step p i).isOutOfBounds = false := by
  rcases step_eq m p i with ⟨ticks, hstep⟩ | ⟨reason, -, hstep⟩
  · rw [hstep]
    refine execute_inBounds _ p fun a ha fault hfault => ?_
    replace hfault : m.register a = .error fault := hfault
    rcases h.register_cases haddr hc hat ha with ⟨-, hnone⟩ | ⟨activation, -, -, hsome⟩
    · rw [hnone] at hfault
      cases hfault
      rfl
    · rw [hsome] at hfault
      cases hfault
  · rw [hstep]
    rfl

/-! ## Activations of a run -/

variable {signals : Nat → Signals} {k n slots slots' r : Nat} {activation activation' : Activation}

theorem housed_course (hstart : m.Coherent) (h : Housed p m) (haddr : p.WellAddressed)
    (signals : Nat → Signals) (n : Nat) : Housed p (course p m signals n) := by
  induction n with
  | zero => exact h
  | succ n ih =>
    have hseen : Housed p ((course p m signals n).withSignals (signals n)) := { ih with }
    exact housed_dispatch hseen haddr ((coherent_course hstart p signals n).withSignals (signals n))

theorem registerStep_course (p : Program) (m : Machine) (signals : Nat → Signals) (n : Nat) :
    RegisterStep p ((course p m signals n).withSignals (signals n)) (course p m signals (n + 1)) :=
  registerStep_dispatch p _

theorem offset_course_le (p : Program) (m : Machine) (signals : Nat → Signals) (hle : k ≤ n) :
    (course p m signals k).offset ≤ (course p m signals n).offset := by
  induction hle with
  | refl => exact Nat.le_refl _
  | step _ ih => exact Nat.le_trans ih (registerStep_course p m signals _).offset_le

/-- Dispatch `k` of a run enters a scope with so many variables, and the registers of the new
activation are the first free ones. -/
structure Allots (p : Program) (m : Machine) (signals : Nat → Signals) (k : Nat)
    (activation : Activation) (slots : Nat) : Prop where
  carriesOut : CarriesOut p ((course p m signals k).withSignals (signals k))
    (.scope activation.scope slots)
  base : activation.base = (course p m signals k).offset
  top : (course p m signals (k + 1)).scopes.top? = some activation

theorem CarriesOut.allots {id : ScopeId} (hstart : m.Coherent)
    (h : CarriesOut p ((course p m signals k).withSignals (signals k)) (.scope id slots)) :
    ∃ activation, activation.scope = id ∧ Allots p m signals k activation slots := by
  have hcoherent := coherent_course hstart p signals k
  have hcaller := level_caller_le hcoherent p.length
  have htop := (congrArg RewindStack.top? h.entered).trans
    (top?_push (calleeScopes_linked hcoherent.scopes.toLinked hcaller) _)
  exact ⟨_, rfl, h, rfl, htop⟩

/-- The registers of an activation lie between the first free ones before and after. -/
theorem Allots.offset_succ (h : Allots p m signals k activation slots) :
    (course p m signals (k + 1)).offset = activation.base + slots := by
  rw [h.base]
  exact h.carriesOut.take.2

theorem Allots.below (h : Allots p m signals k activation slots)
    (h' : Allots p m signals n activation' slots') (hlt : k < n) :
    activation.base + slots ≤ activation'.base := by
  rw [← h.offset_succ, h'.base]
  exact offset_course_le p m signals hlt

/-- Every cell of a machine of a run holds an activation that a dispatch of the run has allotted
registers to. -/
theorem allotted_course (hstart : m.Coherent) (hempty : m.scopes.cells = #[]) (n : Nat) :
    (course p m signals n).scopes.Holds fun _ activation =>
      ∃ k slots, k < n ∧ Allots p m signals k activation slots := by
  induction n with
  | zero =>
    intro i cell hcell
    rw [course, hempty] at hcell
    cases hcell
  | succ n ih =>
    refine (shift_course hstart p signals n).holds
      ((coherent_course hstart p signals n).withSignals (signals n)) ?_ ?_
    · refine ih.mono ?_
      rintro - activation ⟨k, slots, hlt, hallots⟩
      exact ⟨k, slots, Nat.lt_succ_of_lt hlt, hallots⟩
    · rintro id slots activation hcarries rfl hbase htop
      exact ⟨n, slots, Nat.lt_succ_self n, hcarries, hbase, htop⟩

/-! ## Isolation -/

/-- Before dispatch `n` of a run, the variable `a` is found in an activation of the run, and `r` is
its register there. -/
def ResolvesTo (p : Program) (m : Machine) (signals : Nat → Signals) (n : Nat) (a : Address)
    (r : Nat) : Prop :=
  ∃ k activation slots, k < n ∧ Allots p m signals k activation slots ∧
    (course p m signals n).scopes.find? (·.scope == a.scope) = some activation ∧
    r = activation.base + a.slot ∧ activation.Owns slots r

/-- The activations of a run do not share registers. -/
structure RegistersIsolated (p : Program) (m : Machine) (signals : Nat → Signals) : Prop where
  /-- Every scope that is entered takes registers. -/
  allotted : ∀ {k id slots},
    CarriesOut p ((course p m signals k).withSignals (signals k)) (.scope id slots) →
    ∃ activation, activation.scope = id ∧ Allots p m signals k activation slots
  /-- No register is taken twice. -/
  apart : ∀ {k n activation slots activation' slots'}, k ≠ n →
    Allots p m signals k activation slots → Allots p m signals n activation' slots' →
    ∀ r, activation.Owns slots r → ¬ activation'.Owns slots' r
  /-- The register of a variable belongs to the activation that the variable is found in. -/
  resolved : ∀ {n i a}, p.at? (course p m signals n).pc = some i → i.address? = some a →
    ((course p m signals n).scopes.find? (·.scope == a.scope) = none ∧
      (course p m signals n).register a = .error (.unknownScope a.scope)) ∨
    ∃ r, (course p m signals n).register a = .ok r ∧ ResolvesTo p m signals n a r
  /-- Nothing but storing and appending changes a register. -/
  written : ∀ {n r}, r < (course p m signals n).registers.size →
    (course p m signals (n + 1)).registers[r]? ≠ (course p m signals n).registers[r]? →
    ∃ a, StoresTo p ((course p m signals n).withSignals (signals n)) a r ∧
      ResolvesTo p m signals n a r
  /-- A register of an activation holds null until the first time it is stored to. -/
  blank : ∀ {k n activation slots r}, Allots p m signals k activation slots →
    activation.Owns slots r → k < n →
    (∀ t a, k < t → t < n →
      ¬ StoresTo p ((course p m signals t).withSignals (signals t)) a r) →
    (course p m signals n).registers[r]? = some (.value .null)
  /-- Until then a load from it pushes null. -/
  loadsNull : ∀ {k n activation slots r a}, Allots p m signals k activation slots →
    activation.Owns slots r → k < n →
    (∀ t a, k < t → t < n →
      ¬ StoresTo p ((course p m signals t).withSignals (signals t)) a r) →
    CarriesOut p ((course p m signals n).withSignals (signals n)) (.load a) →
    (course p m signals n).register a = .ok r →
    (course p m signals (n + 1)).stack.toList =
      .value .null :: (course p m signals n).stack.toList
  /-- No register is missing. -/
  inBounds : ∀ {n i}, p.at? (course p m signals n).pc = some i → ∀ after r,
    ((course p m signals n).withSignals (signals n)).step p i ≠ .fail after (.registerOutOfBounds r)

theorem resolves_course (hstart : m.Coherent) (hempty : m.scopes.cells = #[])
    (hhoused : Housed p m) (haddr : p.WellAddressed)
    (hat : p.at? (course p m signals n).pc = some i) (ha : i.address? = some a) :
    ((course p m signals n).scopes.find? (·.scope == a.scope) = none ∧
      (course p m signals n).register a = .error (.unknownScope a.scope)) ∨
    ∃ r, (course p m signals n).register a = .ok r ∧ ResolvesTo p m signals n a r := by
  have hcoherent := coherent_course hstart p signals n
  have hhoused := housed_course hstart hhoused haddr signals n
  rcases hhoused.register_cases haddr hcoherent hat ha with hnone | ⟨activation, hfind, -, hok⟩
  · exact .inl hnone
  · right
    obtain ⟨haccept, -, k, slots, hlt, hallots⟩ :=
      (allotted_course hstart hempty n).of_find? hcoherent.scopes.toLinked hfind
    have hscope := hallots.carriesOut.instruction
    rw [eq_of_beq haccept] at hscope
    have hslot := haddr.slot_lt hat ha hscope
    refine ⟨_, hok, k, activation, slots, hlt, hallots, hfind, rfl, ?_, ?_⟩ <;> omega

/-- A register that is taken holds null: no one has had it before. -/
theorem Allots.blank (hallots : Allots p m signals k activation slots) (hstart : m.Coherent)
    (hhoused : Housed p m) (haddr : p.WellAddressed) (howns : activation.Owns slots r) :
    (course p m signals (k + 1)).registers[r]? = some (.value .null) := by
  obtain ⟨hfrom, hto⟩ := howns
  have hroom := (housed_course hstart hhoused haddr signals (k + 1)).offset_le
  rw [hallots.offset_succ] at hroom
  rw [hallots.base] at hfrom
  have hbefore := (housed_course hstart hhoused haddr signals k).blank r hfrom
  have hafter : (course p m signals (k + 1)).registers.getD r default = default := by
    rw [course, hallots.carriesOut.take.1, getD_growRegisters]
    exact hbefore
  rw [Array.getD_eq_getD_getElem?, Array.getElem?_eq_getElem (by omega)] at hafter
  rw [Array.getElem?_eq_getElem (by omega)]
  exact congrArg some hafter

/-- A register that was not stored to since it was taken holds null. -/
theorem blank_course (hstart : m.Coherent) (hhoused : Housed p m) (haddr : p.WellAddressed)
    (hallots : Allots p m signals k activation slots) (howns : activation.Owns slots r)
    (hlt : k < n) (hno : ∀ t a, k < t → t < n →
      ¬ StoresTo p ((course p m signals t).withSignals (signals t)) a r) :
    (course p m signals n).registers[r]? = some (.value .null) := by
  induction hlt with
  | refl => exact hallots.blank hstart hhoused haddr howns
  | @step n hle ih =>
    have hheld := ih fun t a hkt htn => hno t a hkt (Nat.lt_succ_of_lt htn)
    have hsize := (Array.getElem?_eq_some_iff.mp hheld).1
    rw [(registerStep_course p m signals n).kept hsize fun a => hno n a hle (Nat.lt_succ_self n)]
    exact hheld

/-- A load pushes what its register holds. -/
theorem CarriesOut.loaded (h : CarriesOut p m (.load a)) (hr : m.register a = .ok r) :
    (dispatch p m).machine.stack = m.stack.push (m.registers.getD r default) := by
  obtain ⟨ticks, hstep⟩ := h.step_eq
  have hticks : register { m with ticks } a = .ok r := hr
  rw [dispatch_at h.running h.instruction, hstep, execute, loadVariable, hticks]
  rfl

/-- From a register that holds null a load pushes null. -/
theorem loadsNull_course (hstart : m.Coherent)
    (hnull : (course p m signals n).registers[r]? = some (.value .null))
    (hload : CarriesOut p ((course p m signals n).withSignals (signals n)) (.load a))
    (hr : (course p m signals n).register a = .ok r) :
    (course p m signals (n + 1)).stack.toList =
      .value .null :: (course p m signals n).stack.toList := by
  have hlinked := (coherent_course hstart p signals n).stack.toLinked
  have hheld : (course p m signals n).registers.getD r default = .value .null := by
    rw [Array.getD_eq_getD_getElem?, hnull, Option.getD_some]
  have hpushed : (course p m signals (n + 1)).stack =
      (course p m signals n).stack.push ((course p m signals n).registers.getD r default) :=
    hload.loaded hr
  rw [hpushed, hheld, toList_push hlinked]

/-- In a run of a well-addressed program, however small its register file is at the start, the
activations do not share registers. -/
theorem registers_isolated (haddr : p.WellAddressed) (idle : Machine) (settings : Settings)
    (input : Value) (interrupt : Option Interrupt) (signals : Nat → Signals) :
    RegistersIsolated p (idle.load settings input interrupt) signals := by
  have hstart := coherent_load idle settings input interrupt
  have hhoused := housed_load p idle settings input interrupt
  generalize hm : idle.load settings input interrupt = m at hstart hhoused
  have hempty : m.scopes.cells = #[] := by
    rw [← hm]
    rfl
  refine ⟨fun hcarries => hcarries.allots hstart, ?_, resolves_course hstart hempty hhoused haddr,
    ?_, fun hallots howns => blank_course hstart hhoused haddr hallots howns, ?_, ?_⟩
  · rintro k n activation slots activation' slots' hne hallots hallots' r
    rintro ⟨hfrom, hto⟩ ⟨hfrom', hto'⟩
    rcases Nat.lt_or_gt_of_ne hne with hlt | hlt
    · have hbelow := hallots.below hallots' hlt
      omega
    · have hbelow := hallots'.below hallots hlt
      omega
  · intro n r hr hchanged
    have hstored : ∃ a, StoresTo p ((course p m signals n).withSignals (signals n)) a r := by
      by_contra hno
      exact hchanged ((registerStep_course p m signals n).kept hr fun a h => hno ⟨a, h⟩)
    obtain ⟨a, hstores⟩ := hstored
    refine ⟨a, hstores, ?_⟩
    obtain ⟨i, after, hi, hat, -⟩ := hstores.stores
    have ha : i.address? = some a := by
      rcases hi with rfl | rfl <;> rfl
    have hr : (course p m signals n).register a = .ok r := hstores.register
    rcases resolves_course hstart hempty hhoused haddr hat ha with
      ⟨-, hnone⟩ | ⟨r', hok, hresolves⟩
    · rw [hr] at hnone
      cases hnone
    · rw [hr] at hok
      cases hok
      exact hresolves
  · intro k n activation slots r a hallots howns hlt hno hload hr
    exact loadsNull_course hstart (blank_course hstart hhoused haddr hallots howns hlt hno) hload hr
  · intro n i hat after r hfail
    have hseen : Housed p ((course p m signals n).withSignals (signals n)) :=
      { housed_course hstart hhoused haddr signals n with }
    have hinBounds := hseen.step_inBounds haddr
      ((coherent_course hstart p signals n).withSignals (signals n)) hat
    rw [hfail] at hinBounds
    cases hinBounds

/-- A function with two variables is called in both alternatives, and looks at a variable of its
caller. -/
def callingTwice : Program where
  name := "callingTwice"
  code := #[.scope 0 1, .dup, .store ⟨0, 0⟩, .fork 7, .call 9, .load ⟨0, 0⟩, .ret, .call 9, .ret,
    .scope 1 2, .dup, .store ⟨1, 1⟩, .load ⟨0, 0⟩, .ret]
  functions := #[]
  lines := #[]
  natives := {}

/-- The second call comes after the first one was given up, and takes new registers. -/
theorem registers_isolated_callingTwice :
    callingTwice.WellAddressed ∧
    (course callingTwice (load {} { initialRegisters := 0 } .null none) (fun _ => {}) 6).offset =
      3 ∧
    (course callingTwice (load {} { initialRegisters := 0 } .null none) (fun _ => {}) 16).offset =
      5 ∧
    RegistersIsolated callingTwice (load {} { initialRegisters := 0 } .null none) (fun _ => {}) :=
  ⟨by decide, by decide +kernel, by decide +kernel,
    registers_isolated (by decide) {} { initialRegisters := 0 } .null none fun _ => {}⟩

end Machine
end QueryMachine
