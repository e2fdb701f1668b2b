import QueryMachine.Proofs.ControlFlow
import QueryMachine.Proofs.PlainSimulation

/-!
# Calls without closures

A call through a closure links the new activation to another one than its caller. In a program that
calls no closures, and calls nothing but scopes, an activation always lies on that of its caller:
what variables are looked up in is the stack of calls.

* `Program.CallsScopes`: the programs;
* `Orderly`: every activation lies on that of its caller, and so will the next one;
* `orderly_dispatch`: every dispatch keeps it so, until the run is over.
-/

namespace QueryMachine

/-! ## Programs that call scopes -/

/-- Whether an instruction enters a scope. -/
def Instruction.isScope : Instruction → Bool
  | .scope .. => true
  | _ => false

/-- Whether an instruction calls a scope, if it calls at all. What a closure leads to is not
known. -/
def Instruction.callsScope (p : Program) : Instruction → Bool
  | .call target => (p.at? target).any (·.isScope)
  | .callPc => false
  | _ => true

/-- No closure is called, and every call leads to a scope instruction. -/
def Program.CallsScopes (p : Program) : Prop :=
  ∀ i ∈ p.code, i.callsScope p = true

instance (p : Program) : Decidable p.CallsScopes :=
  inferInstanceAs (Decidable (∀ i ∈ p.code, i.callsScope p = true))

theorem Program.CallsScopes.callsScope {p : Program} (h : p.CallsScopes) {pc : Nat}
    {i : Instruction} (hat : p.at? pc = some i) : i.callsScope p = true :=
  h i (Array.mem_of_getElem? hat)

theorem Instruction.exists_of_isScope {i : Instruction} (h : i.isScope = true) :
    ∃ id slots, i = .scope id slots := by
  cases i with
  | scope id slots => exact ⟨id, slots, rfl⟩
  | _ => cases h

namespace PlainMachine

variable {p : Program} {m m' : PlainMachine} {i : Instruction} {effect : PlainEffect}

/-! ## Activations in the order of calls -/

/-- Every activation lies on that of its caller, and a call under way is about to enter its scope
from the present activation. -/
structure Orderly (p : Program) (m : PlainMachine) : Prop where
  saved : ∀ (i : Nat) (cell : Cell Activation), m.scopes.cells[i]? = some cell →
    cell.value.saved = cell.below
  call : ∀ call, m.pendingCall = some call →
    call.caller = m.scopes.top ∧ ∃ i, p.at? m.pc = some i ∧ i.isScope = true

/-- The callee sees the activations as they are. -/
theorem Orderly.calleeScopes_eq (h : m.Orderly p) (length : Nat) :
    Machine.calleeScopes m.scopes (m.pendingCall.getD ⟨length, m.scopes.top⟩).caller =
      m.scopes := by
  have hcaller : (m.pendingCall.getD ⟨length, m.scopes.top⟩).caller = m.scopes.top := by
    cases hcall : m.pendingCall with
    | none => rfl
    | some call => exact (h.call call hcall).1
  rw [Machine.calleeScopes, if_pos hcaller]

/-- Only a scope instruction finds a call under way. -/
theorem Orderly.pendingCall_eq_none (h : m.Orderly p) (hat : p.at? m.pc = some i)
    (hi : i.isScope = false) : m.pendingCall = none := by
  cases hcall : m.pendingCall with
  | none => rfl
  | some call =>
    obtain ⟨-, j, hj, hscope⟩ := h.call call hcall
    rw [Option.some.inj (hat.symm.trans hj), hscope] at hi
    cases hi

/-- No activation is entered, and no call is under way. -/
theorem Orderly.of_cells (h : m.Orderly p) (hcells : m'.scopes.cells = m.scopes.cells)
    (hnone : m'.pendingCall = none) : m'.Orderly p where
  saved := by
    rw [hcells]
    exact h.saved
  call := by
    intro call hcall
    rw [hnone] at hcall
    cases hcall

/-! ## What a dispatch does to the activations -/

theorem orderly_unwind (h : m.Orderly p) (hcells : m'.scopes.cells = m.scopes.cells) :
    (unwind m').machine.finished = true ∨ (unwind m').machine.Orderly p := by
  cases hb : m'.branches with
  | nil =>
    rw [unwind_nil hb]
    exact .inl rfl
  | cons b older =>
    rw [unwind_cons hb]
    exact .inr (h.of_cells hcells rfl)

/-- The new activation lies on that of its caller. -/
theorem orderly_enterScope (h : m.Orderly p) (hrooted : m.Rooted) (id : ScopeId)
    (slots length : Nat) : (follow (m.enterScope id slots length)).machine.Orderly p := by
  refine ⟨?_, fun call hcall => by cases hcall⟩
  intro i cell hcell
  simp only [enterScope, follow, PlainProgress.machine, h.calleeScopes_eq] at hcell
  rw [RewindStack.getElem?_push hrooted.scopes.toLinked.nextCell_le] at hcell
  split at hcell
  · obtain rfl := Option.some.inj hcell
    rfl
  · exact h.saved i cell hcell

theorem orderly_follow (h : m.Orderly p) (hcalls : p.CallsScopes) (hat : p.at? m.pc = some i)
    (hi : i.isScope = false) (hflow : Flow p m i effect) :
    (follow effect).machine.finished = true ∨ (follow effect).machine.Orderly p := by
  have hnone := h.pendingCall_eq_none hat hi
  cases hflow with
  | next hm' => exact .inr (h.of_cells (congrArg _ hm'.scopes) (hm'.pendingCall.trans hnone))
  | jump _ hm' => exact .inr (h.of_cells (congrArg _ hm'.scopes) (hm'.pendingCall.trans hnone))
  | suspend hm' =>
    refine .inr (h.of_cells ?_ (hm'.pendingCall.trans hnone))
    exact (congrArg (·.cells) hm'.scopes).trans rfl
  | call target hcall =>
    -- the target is a scope, and nothing happens to the activations on the way
    have hscope := hcalls.callsScope hat
    rw [hcall] at hscope
    obtain ⟨entered, htarget, hentered⟩ := (Option.any_eq_true _ _).mp hscope
    refine .inr ⟨h.saved, ?_⟩
    intro call heq
    obtain rfl := Option.some.inj heq
    exact ⟨rfl, entered, htarget, hentered⟩
  | enter id slots hscope =>
    rw [hscope] at hi
    cases hi
  | ret _ hm' =>
    refine .inr (h.of_cells ?_ (hm'.pendingCall.trans hnone))
    exact (congrArg (·.cells) hm'.scopes).trans rfl
  | yield _ hm' =>
    refine .inr (h.of_cells ?_ (hm'.pendingCall.trans hnone))
    exact (congrArg (·.cells) hm'.scopes).trans rfl
  | stop hm' => exact orderly_unwind h hm'.cells
  | fail hm' => exact orderly_unwind h hm'.cells

/-- Every dispatch but the last keeps the activations in the order of calls. -/
theorem orderly_dispatch (h : m.Orderly p) (hrooted : m.Rooted) (hcalls : p.CallsScopes)
    (hrunning : m.finished = false) :
    (dispatch p m).machine.finished = true ∨ (dispatch p m).machine.Orderly p := by
  cases hat : p.at? m.pc with
  | none =>
    rw [dispatch_outside hrunning hat]
    exact orderly_unwind h rfl
  | some i =>
    rw [dispatch_at hrunning hat]
    rcases step_eq m p i with ⟨ticks, hstep⟩ | ⟨reason, hstep⟩
    · have hticks : Orderly p { m with ticks } := { h with }
      have hticksRooted : Rooted { m with ticks } := { hrooted with }
      rw [hstep]
      cases hi : i.isScope with
      | true =>
        obtain ⟨id, slots, rfl⟩ := Instruction.exists_of_isScope hi
        exact .inr (orderly_enterScope hticks hticksRooted id slots p.length)
      | false =>
        have hne : i ≠ .callPc := by
          rintro rfl
          cases hcalls.callsScope hat
        exact orderly_follow hticks hcalls hat hi (flow_execute _ p hne)
    · rw [hstep]
      exact orderly_unwind h rfl

end PlainMachine
end QueryMachine
