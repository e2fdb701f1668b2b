import QueryMachine.Proofs.Backdrop
import QueryMachine.Proofs.Calls

/-!
# Registers

An activation takes the registers from the first free one on, and the first free register never
goes down. A variable is looked up without regard to whose register it is; that it is always one
of the activation that was found follows from how the program addresses its variables.

* `Program.WellAddressed`: every variable has a slot in each activation of its scope;
* `registerStep_dispatch`: what a dispatch does to the registers. Only entering a scope takes some,
  and only storing and appending write one;
* `Housed`: every activation ever entered, in use or not, has its registers in the register file.
  Every dispatch keeps it (`housed_dispatch`), so that no variable is out of bounds
  (`Housed.register_cases`).
-/

namespace QueryMachine

open RewindStack

/-! ## Addresses -/

/-- The variable that an instruction uses. -/
def Instruction.address? : Instruction → Option Address
  | .load a | .store a | .append a => some a
  | _ => none

/-- Whether a variable has a slot in the activations that an instruction enters. -/
def Instruction.hasRoom (a : Address) : Instruction → Bool
  | .scope id slots => id != a.scope || a.slot < slots
  | _ => true

/-- Every variable that the program uses has a slot in each activation of its scope. -/
def Program.WellAddressed (p : Program) : Prop :=
  ∀ i ∈ p.code, ∀ a ∈ i.address?, ∀ j ∈ p.code, j.hasRoom a = true

instance (p : Program) : Decidable p.WellAddressed :=
  inferInstanceAs (Decidable (∀ i ∈ p.code, ∀ a ∈ i.address?, ∀ j ∈ p.code, j.hasRoom a = true))

theorem Program.WellAddressed.slot_lt {p : Program} (h : p.WellAddressed) {pc pc' slots : Nat}
    {i : Instruction} {a : Address} (hat : p.at? pc = some i) (ha : i.address? = some a)
    (hscope : p.at? pc' = some (.scope a.scope slots)) : a.slot < slots := by
  have hroom := h i (Array.mem_of_getElem? hat) a ha _ (Array.mem_of_getElem? hscope)
  simpa [Instruction.hasRoom] using hroom

/-! ## Growing -/

namespace Machine

variable {m m' e : Machine} {p : Program} {i : Instruction} {a : Address}

/-- A register file that is grown has room. -/
theorem le_size_growRegisters (registers : Array Operand) (size : Nat) :
    size ≤ (growRegisters registers size).size := by
  unfold growRegisters
  split
  · rw [Array.size_append, Array.size_replicate]
    omega
  · omega

/-- Growing leaves the registers that are there alone. -/
theorem getElem?_growRegisters {registers : Array Operand} {r : Nat} (size : Nat)
    (hr : r < registers.size) : (growRegisters registers size)[r]? = registers[r]? := by
  unfold growRegisters
  split
  · exact Array.getElem?_append_left hr
  · rfl

/-- Registers beyond the register file read as null, before it grows and after. -/
theorem getD_growRegisters (registers : Array Operand) (size r : Nat) :
    (growRegisters registers size).getD r default = registers.getD r default := by
  unfold growRegisters
  split
  · simp only [Array.getD_eq_getD_getElem?, Array.getElem?_append, Array.getElem?_replicate]
    split
    · rfl
    · rw [Array.getElem?_eq_none (by omega)]
      split <;> rfl
  · rfl

/-! ## What an instruction does to the registers -/

/-- The registers of `m'` are those of `m`, but for what register `r` holds. -/
structure SameBut (r : Nat) (m m' : Machine) : Prop where
  size : m'.registers.size = m.registers.size
  others : ∀ j, j ≠ r → m'.registers[j]? = m.registers[j]?
  offset : m'.offset = m.offset

theorem backdrop_loadVariable (m : Machine) (a : Address) :
    (m.loadVariable a).machine.backdrop = m.backdrop := by
  unfold loadVariable
  split <;> rfl

/-- Storing writes the register of the variable, or it fails. -/
theorem storeVariable_cases (m : Machine) (a : Address) :
    (m.storeVariable a).machine.backdrop = m.backdrop ∨
      ∃ r m', m.register a = .ok r ∧ m.storeVariable a = .next m' ∧ SameBut r m m' := by
  unfold storeVariable
  cases hr : m.register a with
  | error fault => exact .inl rfl
  | ok r =>
    dsimp only
    cases hp : m.popOperand with
    | error fault => exact .inl rfl
    | ok popped =>
      obtain ⟨x, popped⟩ := popped
      obtain ⟨t, -, rfl⟩ := popOperand_eq_ok hp
      refine .inr ⟨r, _, rfl, rfl, Array.size_setIfInBounds, ?_, rfl⟩
      intro j hj
      exact Array.getElem?_setIfInBounds_ne (Ne.symm hj)

/-- Appending writes the register of the variable, or it fails. -/
theorem appendVariable_cases (m : Machine) (a : Address) :
    (m.appendVariable a).machine.backdrop = m.backdrop ∨
      ∃ r m', m.register a = .ok r ∧ m.appendVariable a = .next m' ∧ SameBut r m m' := by
  unfold appendVariable
  cases hr : m.register a with
  | error fault => exact .inl rfl
  | ok r =>
    dsimp only
    cases hp : m.popValue with
    | error fault => exact .inl rfl
    | ok popped =>
      obtain ⟨v, popped⟩ := popped
      obtain ⟨t, -, rfl⟩ := popOperand_eq_ok (popValue_eq_ok hp)
      dsimp only
      split
      · refine .inr ⟨r, _, rfl, rfl, Array.size_modify, ?_, rfl⟩
        intro j hj
        rw [Array.getElem?_modify, if_neg (Ne.symm hj)]
      · exact .inl rfl
      · exact .inl rfl

/-- A native call raises a flag at most. -/
theorem backdrop_callNative (m : Machine) (table : NativeTable) (id : NativeId) (argc : Nat) :
    ∃ signals, (m.callNative table id argc).machine.backdrop = { m.backdrop with signals } := by
  obtain ⟨signals, hsame⟩ := against_callNative m.backdrop m table id argc
  rw [against_backdrop] at hsame
  refine ⟨signals, ?_⟩
  rw [hsame, Effect.machine_map]
  rfl

/-! ## What a dispatch does to the registers -/

/-- The dispatch of a machine stores into the variable `a`, or appends to it, and the register of
the variable is `r`. -/
structure StoresTo (p : Program) (m : Machine) (a : Address) (r : Nat) : Prop where
  running : m.finished = false
  stores : ∃ i after, (i = .store a ∨ i = .append a) ∧ p.at? m.pc = some i ∧
    m.step p i = .next after
  register : m.register a = .ok r

/-- What becomes of the registers in a dispatch. -/
inductive RegisterStep (p : Program) (m m' : Machine) : Prop where
  | keep (hregisters : m'.registers = m.registers) (hoffset : m'.offset = m.offset)
  | take {id : ScopeId} {slots : Nat} (h : CarriesOut p m (.scope id slots))
      (hregisters : m'.registers = growRegisters m.registers (m.offset + slots))
      (hoffset : m'.offset = m.offset + slots)
  | write {a : Address} {r : Nat} (h : StoresTo p m a r) (hsame : SameBut r m m')

namespace RegisterStep

theorem of_backdrop {ticks : Nat} (h : m'.backdrop = backdrop { m with ticks }) :
    RegisterStep p m m' :=
  .keep (congrArg Backdrop.registers h) (congrArg Backdrop.offset h)

/-- Where the run goes on from an instruction makes no difference to the registers. -/
theorem goOn (h : RegisterStep p m m') (hregisters : e.registers = m'.registers)
    (hoffset : e.offset = m'.offset) : RegisterStep p m e := by
  cases h with
  | keep hr ho => exact .keep (hregisters.trans hr) (hoffset.trans ho)
  | take h hr ho => exact .take h (hregisters.trans hr) (hoffset.trans ho)
  | write h hsame =>
    refine .write h ⟨?_, ?_, hoffset.trans hsame.offset⟩
    · rw [hregisters, hsame.size]
    · rw [hregisters]
      exact hsame.others

/-- The first free register never goes down. -/
theorem offset_le (h : RegisterStep p m m') : m.offset ≤ m'.offset := by
  cases h with
  | keep hr ho => omega
  | take h hr ho => omega
  | write h hsame => exact Nat.le_of_eq hsame.offset.symm

/-- A register that is not stored to keeps what it holds. -/
theorem kept (h : RegisterStep p m m') {r : Nat} (hr : r < m.registers.size)
    (hno : ∀ a, ¬ StoresTo p m a r) : m'.registers[r]? = m.registers[r]? := by
  cases h with
  | keep hregisters hoffset => rw [hregisters]
  | take h hregisters hoffset => rw [hregisters, getElem?_growRegisters _ hr]
  | @write a r' h hsame =>
    refine hsame.others r ?_
    rintro rfl
    exact hno a h

end RegisterStep

theorem registerStep_step (hrunning : m.finished = false) (hat : p.at? m.pc = some i) :
    RegisterStep p m (m.step p i).machine := by
  rcases step_eq m p i with ⟨ticks, hstep⟩ | ⟨reason, -, hstep⟩
  · cases i with
    | load a =>
      rw [hstep]
      exact .of_backdrop (backdrop_loadVariable _ a)
    | store a =>
      rcases storeVariable_cases { m with ticks } a with hkept | ⟨r, after, hr, hnext, hsame⟩
      · rw [hstep]
        exact .of_backdrop hkept
      · have hafter := hstep.trans hnext
        rw [hafter]
        exact .write ⟨hrunning, ⟨_, after, .inl rfl, hat, hafter⟩, hr⟩ { hsame with }
    | append a =>
      rcases appendVariable_cases { m with ticks } a with hkept | ⟨r, after, hr, hnext, hsame⟩
      · rw [hstep]
        exact .of_backdrop hkept
      · have hafter := hstep.trans hnext
        rw [hafter]
        exact .write ⟨hrunning, ⟨_, after, .inr rfl, hat, hafter⟩, hr⟩ { hsame with }
    | scope id slots =>
      have hcarries : CarriesOut p m (.scope id slots) := by
        refine ⟨hrunning, hat, fun after reason hfail => ?_⟩
        rw [hstep] at hfail
        cases hfail
      rw [hstep]
      exact .take hcarries rfl rfl
    | callNative id argc =>
      obtain ⟨signals, hkept⟩ := backdrop_callNative { m with ticks } p.natives id argc
      rw [hstep]
      exact .keep (congrArg Backdrop.registers hkept) (congrArg Backdrop.offset hkept)
    | _ =>
      rw [hstep]
      exact .of_backdrop (backdrop_execute _ p rfl)
  · rw [hstep]
    exact .keep rfl rfl

theorem backdrop_unwind (m : Machine) : m.unwind.machine.backdrop = m.backdrop := by
  unfold unwind
  split <;> rfl

theorem registerStep_dispatch (p : Program) (m : Machine) :
    RegisterStep p m (dispatch p m).machine := by
  rcases dispatch_cases p m with hover | ⟨e, he, hunwind⟩ | ⟨i, pc, resuming, hrunning, hat, hnext⟩
  · rw [hover]
    exact .keep rfl rfl
  · have huntouched := ending?_untouched he
    have hkept := backdrop_unwind e
    rw [hunwind]
    exact .keep ((congrArg Backdrop.registers hkept).trans huntouched.registers)
      ((congrArg Backdrop.offset hkept).trans huntouched.offset)
  · rw [hnext]
    exact (registerStep_step hrunning hat).goOn rfl rfl

/-- Entering a scope takes as many registers as it has slots. -/
theorem CarriesOut.take {id : ScopeId} {slots : Nat} (h : CarriesOut p m (.scope id slots)) :
    (dispatch p m).machine.registers = growRegisters m.registers (m.offset + slots) ∧
      (dispatch p m).machine.offset = m.offset + slots := by
  obtain ⟨ticks, hstep⟩ := h.step_eq
  rw [dispatch_at h.running h.instruction, hstep]
  exact ⟨rfl, rfl⟩

/-! ## Activations that are housed -/

/-- What is true of every activation stays true of all, if it is true of one that is entered. -/
theorem Shift.holds {t : RewindStack Activation} {P : Activation → Prop} (h : Shift p m t)
    (hc : m.Coherent) (hold : m.scopes.Holds fun _ => P)
    (hnew : ∀ id slots activation, CarriesOut p m (.scope id slots) → activation.scope = id →
      activation.base = m.offset → t.top? = some activation → P activation) :
    t.Holds fun _ => P := by
  cases h with
  | switch hswitch =>
    intro i cell hcell
    rw [hswitch.cells] at hcell
    exact hold i cell hcell
  | takeUp hb hcells htop =>
    intro i cell hcell
    rw [hcells] at hcell
    exact hold i cell hcell
  | @enter id slots hcarries ht =>
    have hlinked := calleeScopes_linked hc.scopes.toLinked (level_caller_le hc p.length)
    have htop := (congrArg RewindStack.top? ht).trans (top?_push hlinked _)
    rw [ht, calleeEntered]
    refine Holds.push ?_ hlinked (hnew id slots _ hcarries rfl rfl htop)
    intro i cell hcell
    rw [calleeScopes_cells] at hcell
    exact hold i cell hcell

/-- All activations that were ever entered have their registers below the first free one, the
register file holds all of them, and those above have never been written. -/
structure Housed (p : Program) (m : Machine) : Prop where
  offset_le : m.offset ≤ m.registers.size
  activations : m.scopes.Holds fun _ activation =>
    ∃ pc slots, p.at? pc = some (.scope activation.scope slots) ∧
      activation.base + slots ≤ m.offset
  blank : ∀ r, m.offset ≤ r → m.registers.getD r default = default

/-- A variable is in no activation that is looked up, or in a register that is taken. -/
theorem Housed.register_cases (h : Housed p m) (haddr : p.WellAddressed) (hc : m.Coherent)
    {pc : Nat} (hat : p.at? pc = some i) (ha : i.address? = some a) :
    (m.scopes.find? (·.scope == a.scope) = none ∧
      m.register a = .error (.unknownScope a.scope)) ∨
    ∃ activation, m.scopes.find? (·.scope == a.scope) = some activation ∧
      activation.base + a.slot < m.offset ∧ m.register a = .ok (activation.base + a.slot) := by
  rw [register]
  cases hfind : m.scopes.find? (·.scope == a.scope) with
  | none => exact .inl ⟨rfl, rfl⟩
  | some activation =>
    right
    obtain ⟨haccept, -, pc', slots, hscope, hle⟩ :=
      h.activations.of_find? hc.scopes.toLinked hfind
    rw [eq_of_beq haccept] at hscope
    have hslot := haddr.slot_lt hat ha hscope
    have hsize := h.offset_le
    refine ⟨activation, rfl, by omega, ?_⟩
    dsimp only
    rw [if_pos (by omega)]

theorem StoresTo.lt_offset {r : Nat} (hs : StoresTo p m a r) (h : Housed p m)
    (haddr : p.WellAddressed) (hc : m.Coherent) : r < m.offset := by
  obtain ⟨i, after, hi, hat, -⟩ := hs.stores
  have ha : i.address? = some a := by
    rcases hi with rfl | rfl <;> rfl
  rcases h.register_cases haddr hc hat ha with ⟨-, hnone⟩ | ⟨activation, -, hlt, hsome⟩
  · rw [hs.register] at hnone
    cases hnone
  · rw [hs.register] at hsome
    cases hsome
    exact hlt

theorem housed_dispatch (h : Housed p m) (haddr : p.WellAddressed) (hc : m.Coherent) :
    Housed p (dispatch p m).machine where
  offset_le := by
    have hsize := h.offset_le
    cases registerStep_dispatch p m with
    | keep hregisters hoffset => rw [hregisters, hoffset]; exact hsize
    | take hcarries hregisters hoffset =>
      rw [hregisters, hoffset]
      exact le_size_growRegisters _ _
    | write hstores hsame => rw [hsame.size, hsame.offset]; exact hsize
  activations := by
    have hle := (registerStep_dispatch p m).offset_le
    refine (shift_dispatch hc p).holds hc ?_ ?_
    · refine h.activations.mono ?_
      rintro - activation ⟨pc, slots, hscope, hbelow⟩
      exact ⟨pc, slots, hscope, Nat.le_trans hbelow hle⟩
    · rintro id slots activation hcarries rfl hbase -
      refine ⟨m.pc, slots, hcarries.instruction, ?_⟩
      rw [hbase]
      exact Nat.le_of_eq hcarries.take.2.symm
  blank := by
    intro r hr
    have hle := (registerStep_dispatch p m).offset_le
    have hblank := h.blank r (Nat.le_trans hle hr)
    cases registerStep_dispatch p m with
    | keep hregisters hoffset => rw [hregisters]; exact hblank
    | take hcarries hregisters hoffset =>
      rw [hregisters, getD_growRegisters]
      exact hblank
    | @write a r' hstores hsame =>
      -- the register that is written is below the first free one
      have hlt := hstores.lt_offset h haddr hc
      rw [Array.getD_eq_getD_getElem?, hsame.others r (by omega), ← Array.getD_eq_getD_getElem?]
      exact hblank

theorem housed_load (p : Program) (idle : Machine) (settings : Settings) (input : Value)
    (interrupt : Option Interrupt) : Housed p (idle.load settings input interrupt) where
  offset_le := Nat.zero_le _
  activations := fun i cell hcell => by simp [load, reset, RewindStack.empty] at hcell
  blank := by
    intro r _
    show (Array.replicate settings.initialRegisters default).getD r default = default
    rw [Array.getD_eq_getD_getElem?, Array.getElem?_replicate]
    split <;> rfl

end Machine
end QueryMachine
