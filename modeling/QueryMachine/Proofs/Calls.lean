import QueryMachine.Proofs.Frames
import QueryMachine.Proofs.Handlers

/-!
# Calls return to their callers

Every activation is written once, by the scope instruction that enters it, and its cell is not
used again as long as the machine can still turn to it.

* `shift_dispatch`: what a dispatch does to the activations. Only entering a scope writes a cell;
  every other move turns to an activation that was there before;
* `stands_course`: the current activation, and those that the pending branches go back to, lie as
  they were entered, and so does everything below them. The proof is an induction on the run;
* `calls_return`: so a return brings back the chain that the scope instruction found.
-/

namespace QueryMachine

open RewindStack

namespace Machine

variable {m m' e : Machine} {p : Program} {i : Instruction} {s t : RewindStack Activation}

/-! ## Instructions that are carried out -/

/-- A dispatch of the machine carries an instruction out: the run is not over, and the interrupt
does not stop it. -/
structure CarriesOut (p : Program) (m : Machine) (i : Instruction) : Prop where
  running : m.finished = false
  instruction : p.at? m.pc = some i
  uncanceled : ∀ after reason, m.step p i ≠ .fail after (.canceled reason)

theorem CarriesOut.step_eq (h : CarriesOut p m i) :
    ∃ ticks, m.step p i = execute { m with ticks } p i := by
  rcases Machine.step_eq m p i with hstep | ⟨reason, -, hstep⟩
  · exact hstep
  · exact absurd hstep (h.uncanceled _ reason)

/-! ## What an instruction does to the activations -/

/-- No cell is written, and the current activation stays or is left for the one of its caller. -/
inductive Switch (s t : RewindStack Activation) : Prop where
  | stay (hcells : t.cells = s.cells) (htop : t.top = s.top)
  | leave {place : Nat} {cell : Cell Activation} (hplace : s.top = some place)
      (hcell : s.cells[place]? = some cell) (hcells : t.cells = s.cells)
      (htop : t.top = cell.value.saved)

theorem Switch.of_eq (h : t = s) : Switch s t :=
  .stay (by rw [h]) (by rw [h])

theorem Switch.cells (h : Switch s t) : t.cells = s.cells := by
  cases h with
  | stay hcells htop => exact hcells
  | leave hplace hcell hcells htop => exact hcells

theorem switch_of_inPlace (h : InPlace m m') : Switch m.scopes m'.scopes := by
  rcases h.scopes with heq | heq
  · exact .of_eq heq
  · exact .stay (congrArg (·.cells) heq) (congrArg (·.top) heq)

theorem scopes_openPath (m : Machine) : m.openPath.machine.scopes = m.scopes := by
  unfold openPath
  split
  · rfl
  · split <;> rfl

theorem scopes_closePath (m : Machine) : m.closePath.machine.scopes = m.scopes := by
  unfold closePath
  split
  · rfl
  · split
    · rfl
    · rename_i hp
      have hscopes := (OperandsOnly.popValue hp).scopes
      split
      · rfl
      · dsimp only
        split
        · exact hscopes
        · rfl

theorem switch_leaveScope (m : Machine) : Switch m.scopes m.leaveScope.machine.scopes := by
  unfold leaveScope
  split
  · exact .of_eq rfl
  · split
    · exact .of_eq rfl
    · rename_i activation below hpop
      obtain ⟨cell, hcell, rfl, rfl⟩ := pop?_eq_some hpop
      obtain ⟨place, hplace, hget⟩ := cell?_eq_some hcell
      dsimp only
      split
      · split <;> exact .leave hplace hget rfl rfl
      · exact .leave hplace hget rfl rfl

/-- Only a scope instruction writes an activation. -/
theorem switch_execute (m : Machine) (p : Program) (hi : ∀ id slots, i ≠ .scope id slots) :
    Switch m.scopes (m.execute p i).machine.scopes := by
  cases i with
  | scope id slots => exact absurd rfl (hi id slots)
  | ret => exact switch_leaveScope m
  | pathBegin => exact .of_eq (scopes_openPath m)
  | pathEnd => exact .of_eq (scopes_closePath m)
  | _ => exact switch_of_inPlace (inPlace_execute p rfl)

/-! ## What a dispatch does to the activations -/

/-- The activations after a scope instruction: the new one lies on the chain of the callee, and
remembers the caller's. -/
def calleeEntered (m : Machine) (id : ScopeId) (programLength : Nat) : RewindStack Activation :=
  let call := m.pendingCall.getD ⟨programLength, m.scopes.top⟩
  (calleeScopes m.scopes call.caller).push ⟨id, m.offset, call.returnPc, m.scopes.top⟩

/-- What becomes of the activations in a dispatch. -/
inductive Shift (p : Program) (m : Machine) (t : RewindStack Activation) : Prop where
  | switch (h : Switch m.scopes t)
  | enter {id : ScopeId} {slots : Nat} (h : CarriesOut p m (.scope id slots))
      (ht : t = m.calleeEntered id p.length)
  | takeUp {b : BranchPoint} (hb : b ∈ m.branches) (hcells : t.cells = m.scopes.cells)
      (htop : t.top = b.scopes.top)

/-- A scope instruction that is carried out goes on with the new activation. -/
theorem CarriesOut.enter {id : ScopeId} {slots : Nat} (h : CarriesOut p m (.scope id slots)) :
    ∃ e, m.step p (.scope id slots) = .next e ∧ e.scopes = m.calleeEntered id p.length := by
  obtain ⟨ticks, hstep⟩ := h.step_eq
  exact ⟨_, hstep, rfl⟩

theorem shift_step (hrunning : m.finished = false) (hat : p.at? m.pc = some i) :
    Switch m.scopes (m.step p i).machine.scopes ∨
      ∃ id slots, i = .scope id slots ∧ CarriesOut p m i := by
  rcases step_eq m p i with ⟨ticks, hstep⟩ | ⟨reason, -, hstep⟩
  · by_cases hi : ∀ id slots, i ≠ .scope id slots
    · rw [hstep]
      exact .inl (switch_execute { m with ticks } p hi)
    · simp only [not_forall, not_not] at hi
      obtain ⟨id, slots, rfl⟩ := hi
      refine .inr ⟨id, slots, rfl, hrunning, hat, ?_⟩
      intro after reason hfail
      rw [hstep] at hfail
      cases hfail
  · rw [hstep]
    exact .inl (.of_eq rfl)

/-- Where a continuation ends, the run turns to the activation of a branch, or is over. -/
theorem shift_unwind (h : m.Coherent) (he : ending? p m = some e) :
    Shift p m e.unwind.machine.scopes := by
  have hswitch : Switch m.scopes e.scopes := by
    rcases standing p m with hfinished | ⟨hrunning, hat⟩ | ⟨i, hrunning, hat⟩
    · rw [ending?_finished hfinished] at he
      cases he
    · rw [ending?_outside hrunning hat] at he
      obtain rfl := Option.some.inj he
      exact .of_eq rfl
    · rw [ending?_at hrunning hat] at he
      rcases shift_step hrunning hat with hswitch | ⟨id, slots, rfl, hcarries⟩
      · cases heffect : m.step p i with
        | stop | fail =>
          rw [heffect] at he hswitch
          obtain rfl := Option.some.inj he
          exact hswitch
        | next | jump | yield =>
          rw [heffect] at he
          cases he
      · obtain ⟨after, hstep, -⟩ := hcarries.enter
        rw [hstep] at he
        cases he
  cases hb : e.branches with
  | nil =>
    rw [unwind_nil hb]
    exact .switch hswitch
  | cons b older =>
    rw [unwind_cons hb]
    refine .takeUp ?_ hswitch.cells rfl
    rcases ending?_eq_some h he with hforward | ⟨hnil, -⟩
    · rw [← hforward.branches, hb]
      exact List.mem_cons_self
    · rw [hb] at hnil
      cases hnil

theorem shift_dispatch (h : m.Coherent) (p : Program) :
    Shift p m (dispatch p m).machine.scopes := by
  rcases dispatch_cases p m with hover | ⟨e, he, hunwind⟩ | ⟨i, pc, resuming, hrunning, hat, hnext⟩
  · rw [hover]
    exact .switch (.of_eq rfl)
  · rw [hunwind]
    exact shift_unwind h he
  · rw [hnext]
    rcases shift_step hrunning hat with hswitch | ⟨id, slots, rfl, hcarries⟩
    · exact .switch hswitch
    · obtain ⟨after, hstep, hscopes⟩ := hcarries.enter
      rw [hstep]
      exact .enter hcarries hscopes

/-! ## Entering a scope -/

variable {signals : Nat → Signals} {k n j : Nat}

/-- Dispatch `n` of a run enters a scope, and the new activation takes the cell `i`. -/
structure Enters (p : Program) (m : Machine) (signals : Nat → Signals) (n i : Nat) : Prop where
  carriesOut : ∃ id slots,
    CarriesOut p ((course p m signals n).withSignals (signals n)) (.scope id slots)
  top : (course p m signals (n + 1)).scopes.top = some i

/-- Dispatch `k` entered the scope whose activation lies in the cell `i` of the machine after `n`
dispatches: it is the last one to have taken this cell. -/
structure Entered (p : Program) (m : Machine) (signals : Nat → Signals) (k n i : Nat) : Prop where
  lt : k < n
  enters : Enters p m signals k i
  last : ∀ t, k < t → t < n → ¬ Enters p m signals t i

/-- The machine after a dispatch that enters a scope. -/
theorem CarriesOut.entered {id : ScopeId} {slots : Nat}
    (h : CarriesOut p ((course p m signals n).withSignals (signals n)) (.scope id slots)) :
    (course p m signals (n + 1)).scopes = (course p m signals n).calleeEntered id p.length := by
  obtain ⟨e, hstep, hscopes⟩ := h.enter
  rw [course, dispatch_at h.running h.instruction, hstep]
  exact hscopes

/-- Where the machine returns to from the scope that it enters now: past the end of the program, if
no call is pending. -/
def returnPc (m : Machine) (p : Program) : Nat :=
  m.pendingCall.elim p.length (·.returnPc)

/-- The activation in cell `i` of the machine `m'` has been entered by the machine `m`. No other
cell has been written. -/
structure Fresh (p : Program) (m m' : Machine) (i : Nat) : Prop where
  nextCell_le : m.scopes.nextCell ≤ i
  cell : ∃ cell, m'.scopes.cells[i]? = some cell ∧ cell.value.returnPc = m.returnPc p ∧
    cell.value.saved = m.scopes.top
  others : ∀ j, j ≠ i → m'.scopes.cells[j]? = m.scopes.cells[j]?

theorem fresh_calleeEntered {id : ScopeId} {i : Nat} (h : m.Coherent)
    (hscopes : m'.scopes = m.calleeEntered id p.length) (htop : m'.scopes.top = some i) :
    Fresh p m m' i := by
  have hcaller := level_caller_le h p.length
  have hreturn : (m.pendingCall.getD ⟨p.length, m.scopes.top⟩).returnPc = m.returnPc p := by
    rw [returnPc]
    cases m.pendingCall <;> rfl
  rw [calleeEntered] at hscopes
  generalize m.pendingCall.getD ⟨p.length, m.scopes.top⟩ = call at hscopes hcaller hreturn
  have hnext := (calleeScopes_linked h.scopes.toLinked hcaller).nextCell_le
  rw [hscopes, push_top, Option.some.injEq] at htop
  refine ⟨?_, ?_, ?_⟩
  · rw [← htop]
    exact nextCell_le_calleeScopes m.scopes call.caller
  · rw [hscopes, getElem?_push hnext, if_pos htop.symm]
    exact ⟨_, rfl, hreturn, rfl⟩
  · intro j hj
    rw [hscopes, getElem?_push hnext, if_neg (by omega), calleeScopes_cells]

theorem Enters.fresh {i : Nat} (hstart : m.Coherent) (h : Enters p m signals n i) :
    Fresh p (course p m signals n) (course p m signals (n + 1)) i := by
  obtain ⟨id, slots, hcarries⟩ := h.carriesOut
  exact fresh_calleeEntered (coherent_course hstart p signals n) hcarries.entered h.top

/-- What becomes of the activations in a dispatch of a run. -/
theorem shift_course (hstart : m.Coherent) (p : Program) (signals : Nat → Signals) (n : Nat) :
    Shift p ((course p m signals n).withSignals (signals n))
      (course p m signals (n + 1)).scopes :=
  shift_dispatch ((coherent_course hstart p signals n).withSignals (signals n)) p

/-- A cell is only written by entering a scope whose activation takes it. -/
theorem cell_succ {i : Nat} (hstart : m.Coherent) (h : ¬ Enters p m signals n i) :
    (course p m signals (n + 1)).scopes.cells[i]? = (course p m signals n).scopes.cells[i]? := by
  cases shift_course hstart p signals n with
  | switch hswitch => rw [hswitch.cells]
  | takeUp hb hcells htop => rw [hcells]
  | @enter id slots hcarries ht =>
    obtain ⟨j, htop⟩ : ∃ j, (course p m signals (n + 1)).scopes.top = some j := by
      rw [ht]
      exact ⟨_, push_top _ _⟩
    have hentered : Enters p m signals n j := ⟨⟨id, slots, hcarries⟩, htop⟩
    refine (hentered.fresh hstart).others i ?_
    rintro rfl
    exact h hentered

/-- A cell that no activation takes in the meantime stays as it is. -/
theorem cells_stay {i : Nat} (hstart : m.Coherent) (hle : k ≤ n)
    (h : ∀ t, k ≤ t → t < n → ¬ Enters p m signals t i) :
    (course p m signals n).scopes.cells[i]? = (course p m signals k).scopes.cells[i]? := by
  induction n with
  | zero =>
    obtain rfl : k = 0 := by omega
    rfl
  | succ n ih =>
    by_cases hlast : k = n + 1
    · rw [hlast]
    · rw [cell_succ hstart (h n (by omega) (Nat.lt_succ_self n))]
      exact ih (by omega) fun t ht hlt => h t ht (Nat.lt_succ_of_lt hlt)

/-! ## Activations that stand -/

/-- A place that the machine can turn to at once: that of its current activation, or of one that a
pending branch goes back to. -/
def IsRoot (m : Machine) (place : Option Nat) : Prop :=
  place = m.scopes.top ∨ ∃ b ∈ m.branches, place = b.scopes.top

/-- No push reaches below a root. -/
theorem IsRoot.level_le {place : Option Nat} (hroot : IsRoot m place) (h : m.Coherent) :
    level place ≤ m.scopes.nextCell := by
  rw [nextCell_eq]
  rcases hroot with rfl | ⟨b, hb, rfl⟩
  · omega
  · have hreach := h.scopes.guards.reach_le (List.mem_map_of_mem hb)
    rw [reach] at hreach
    omega

/-- A branch that is pending after a dispatch goes back to a root of the machine before. -/
theorem Move.isRoot (h : Move p m m') {b : BranchPoint} (hb : b ∈ m'.branches) :
    IsRoot m b.scopes.top := by
  cases h with
  | forward h =>
    rw [h.branches] at hb
    exact .inr ⟨b, hb, rfl⟩
  | branch hat hkind h =>
    rw [h.branches] at hb
    cases hb with
    | head =>
      left
      rw [h.savedScopes]
      rfl
    | tail _ hb => exact .inr ⟨b, hb, rfl⟩
  | @takeUp e taken older hend h hbranches =>
    have hmem : b ∈ e.branches := by
      rw [hbranches]
      exact List.mem_cons_of_mem taken hb
    rw [h.branches] at hmem
    exact .inr ⟨b, hmem, rfl⟩
  | ended h hnil hf hi =>
    rw [hnil] at hb
    cases hb

/-- The activation in cell `i` was entered in dispatch `k`, and up to the machine after `n`
dispatches all activations have been entered above it. -/
structure Stands (p : Program) (m : Machine) (signals : Nat → Signals) (k n i : Nat) : Prop where
  lt : k < n
  enters : Enters p m signals k i
  above : ∀ t j, k < t → t < n → Enters p m signals t j → i < j

namespace Stands

variable {i : Nat}

theorem entered (h : Stands p m signals k n i) : Entered p m signals k n i where
  lt := h.lt
  enters := h.enters
  last := by
    intro t hkt htn henters
    exact Nat.lt_irrefl i (h.above t i hkt htn henters)

/-- The activation, and all that lies below it, is as it was when it was entered. -/
theorem same (h : Stands p m signals k n i) (hstart : m.Coherent) (hj : j ≤ i) :
    (course p m signals n).scopes.cells[j]? =
      (course p m signals (k + 1)).scopes.cells[j]? := by
  refine cells_stay hstart h.lt fun t hkt htn henters => ?_
  have habove := h.above t j hkt htn henters
  omega

/-- A root is not overwritten. -/
theorem succ (h : Stands p m signals k n i) (hstart : m.Coherent)
    (hroot : IsRoot (course p m signals n) (some i)) : Stands p m signals k (n + 1) i := by
  refine ⟨Nat.lt_succ_of_lt h.lt, h.enters, ?_⟩
  intro t j hkt htn henters
  by_cases hlast : t = n
  · rw [hlast] at henters
    have hle := hroot.level_le (coherent_course hstart p signals n)
    have hfresh := (henters.fresh hstart).nextCell_le
    rw [level_some] at hle
    omega
  · exact h.above t j hkt (by omega) henters

/-- The caller of an activation that stands has stood as long. -/
theorem caller {i' k' : Nat} (h : Stands p m signals k n i) (hstart : m.Coherent)
    (hcaller : Stands p m signals k' k i')
    (htop : (course p m signals k).scopes.top = some i') : Stands p m signals k' n i' := by
  have hcallee := hcaller.succ hstart (.inl htop.symm)
  have hfresh := (h.enters.fresh hstart).nextCell_le
  have hroot : IsRoot (course p m signals k) (some i') := .inl htop.symm
  have hle := hroot.level_le (coherent_course hstart p signals k)
  rw [level_some] at hle
  refine ⟨Nat.lt_trans hcaller.lt h.lt, hcaller.enters, ?_⟩
  intro t j hkt htn henters
  by_cases hlate : k < t
  · have habove := h.above t j hlate htn henters
    omega
  · exact hcallee.above t j hkt (by omega) henters

/-- The cell of an activation that stands holds what it was entered with. -/
theorem cell (h : Stands p m signals k n i) (hstart : m.Coherent) :
    ∃ cell, (course p m signals n).scopes.cells[i]? = some cell ∧
      cell.value.returnPc = (course p m signals k).returnPc p ∧
      cell.value.saved = (course p m signals k).scopes.top := by
  obtain ⟨cell, hcell, hvalue⟩ := (h.enters.fresh hstart).cell
  exact ⟨cell, (h.same hstart (Nat.le_refl i)).trans hcell, hvalue⟩

end Stands

/-- Every root of every machine of a run stands. -/
theorem stands_course (hstart : m.Coherent) (hempty : m.scopes.top = none)
    (hnone : m.branches = []) (n i : Nat) (hroot : IsRoot (course p m signals n) (some i)) :
    ∃ k, Stands p m signals k n i := by
  -- a return leads to the caller, which stood when the callee was entered: so the induction
  -- goes back to any earlier machine of the run
  induction n using Nat.strongRecOn generalizing i with
  | ind n ih =>
    cases n with
    | zero =>
      rcases hroot with htop | ⟨b, hb, -⟩
      · rw [course, hempty] at htop
        cases htop
      · rw [course, hnone] at hb
        cases hb
    | succ n =>
      have hstays : ∀ {place}, IsRoot (course p m signals n) place → some i = place →
          ∃ k, Stands p m signals k (n + 1) i := by
        rintro _ hroot rfl
        obtain ⟨k, hstands⟩ := ih n (Nat.lt_succ_self n) i hroot
        exact ⟨k, hstands.succ hstart hroot⟩
      rcases hroot with htop | ⟨b, hb, hplace⟩
      · cases shift_course hstart p signals n with
        | @enter id slots hcarries ht =>
          refine ⟨n, Nat.lt_succ_self n, ⟨⟨id, slots, hcarries⟩, htop.symm⟩, ?_⟩
          intro t j hnt htn
          omega
        | takeUp hb hcells htaken => exact hstays (.inr ⟨_, hb, rfl⟩) (htop.trans htaken)
        | switch hswitch =>
          cases hswitch with
          | stay hcells hkept => exact hstays (.inl rfl) (htop.trans hkept)
          | @leave place cell hplace hcell hcells hleft =>
            obtain ⟨k, hstands⟩ := ih n (Nat.lt_succ_self n) place (.inl hplace.symm)
            obtain ⟨callee, hcallee, -, hsaved⟩ := hstands.cell hstart
            obtain rfl := Option.some.inj (hcell.symm.trans hcallee)
            have hcaller := htop.trans (hleft.trans hsaved)
            obtain ⟨k', hstood⟩ := ih k (Nat.lt_succ_of_lt hstands.lt) i (.inl hcaller)
            have hcallee := hstands.succ hstart (.inl hplace.symm)
            exact ⟨k', hcallee.caller hstart hstood hcaller.symm⟩
      · exact hstays ((move_course hstart p signals n).isRoot hb) hplace

/-! ## Returning -/

/-- Dispatch `n` of a run carries out a return in forward mode, with no fault on its way to a
handler, and leaves the activation in the cell `i`. -/
structure Returns (p : Program) (m : Machine) (signals : Nat → Signals) (n i : Nat) : Prop where
  carriesOut : CarriesOut p ((course p m signals n).withSignals (signals n)) .ret
  forward : (course p m signals n).resuming = false
  sound : (course p m signals n).fault = none
  top : (course p m signals n).scopes.top = some i

/-- Dispatch `n` of a run completes a result from the operand on top, or the run ends with a fatal
fault, because there is no value on top. -/
inductive Completes (p : Program) (m : Machine) (signals : Nat → Signals) (n : Nat) : Prop where
  | result {v : Value} {rest : List Operand}
      (hstack : (course p m signals n).stack.toList = .value v :: rest)
      (hitem : outcome p m signals n = .done (course p m signals (n + 1)) (some (.ok v)))
      (hrest : (course p m signals (n + 1)).stack.toList = rest)
  | fault {f : Fault} (hfatal : f.isFatal = true)
      (hstack : ∀ v rest, (course p m signals n).stack.toList ≠ .value v :: rest)
      (hitem : outcome p m signals n = .done (course p m signals (n + 1)) (some (.error f)))

/-- Dispatch `n` of a run returns from the scope that dispatch `k` entered: the activations are
those that the scope instruction found, and the run goes on after the call, unless there was
nothing to return to. -/
structure ReturnsFrom (p : Program) (m : Machine) (signals : Nat → Signals) (k n : Nat) :
    Prop where
  chain : (course p m signals (n + 1)).scopes.chain = (course p m signals k).scopes.chain
  completes : (course p m signals k).scopes.chain = [] → Completes p m signals n
  continues : (course p m signals k).scopes.chain ≠ [] →
    outcome p m signals n = .running (course p m signals (n + 1)) ∧
    (course p m signals (n + 1)).pc = (course p m signals k).returnPc p + 1 ∧
    (course p m signals (n + 1)).resuming = false

/-- Either there is a value on top, or popping one fails for good. -/
theorem popValue_cases (h : m.Coherent) :
    (∃ v m', m.popValue = .ok (v, m') ∧ m.stack.toList = .value v :: m'.stack.toList) ∨
      ∃ f, m.popValue = .error f ∧ f.isFatal = true ∧
        ∀ v rest, m.stack.toList ≠ .value v :: rest := by
  unfold popValue popOperand
  rcases pop?_cases h.stack.toLinked with ⟨hnone, -, hchain⟩ | ⟨place, x, t, hsome, -, hchain⟩
  · right
    rw [hnone]
    refine ⟨.stackUnderflow, rfl, rfl, ?_⟩
    intro v rest heq
    rw [toList, hchain] at heq
    cases heq
  · have hlist : m.stack.toList = x :: t.toList := by
      rw [toList, hchain]
      rfl
    rw [hsome, hlist]
    cases x with
    | value v => exact .inl ⟨v, _, rfl, rfl⟩
    | closure pc scope => exact .inr ⟨_, rfl, rfl, fun v rest heq => by cases heq⟩
    | entries rest => exact .inr ⟨_, rfl, rfl, fun v rest heq => by cases heq⟩

section leaveScope

variable {place : Nat} {cell : Cell Activation}

/-- A return to a caller goes on after the call. -/
theorem follow_leaveScope_caller (hforward : m.resuming = false) (hsound : m.fault = none)
    (hpop : m.scopes.pop? = some (cell.value, m.scopes.setTop cell.below))
    (hsaved : cell.value.saved = some place) :
    follow m.leaveScope = .running { m with
      scopes := m.scopes.setTop (some place)
      pc := cell.value.returnPc + 1 } := by
  unfold leaveScope
  simp only [hforward, hsound, hpop, hsaved, Option.isSome_none, Bool.or_self, Bool.false_eq_true,
    if_false]
  rfl

/-- A return from the outermost scope completes a result, or fails for good. -/
theorem follow_leaveScope_outermost (h : m.Coherent) (hforward : m.resuming = false)
    (hsound : m.fault = none)
    (hpop : m.scopes.pop? = some (cell.value, m.scopes.setTop cell.below))
    (hsaved : cell.value.saved = none) :
    ∃ m', m'.scopes = m.scopes.setTop none ∧
      ((∃ v, m.stack.toList = .value v :: m'.stack.toList ∧
          follow m.leaveScope = .done m' (some (.ok v))) ∨
        ∃ f, f.isFatal = true ∧ (∀ v rest, m.stack.toList ≠ .value v :: rest) ∧
          follow m.leaveScope = .done m' (some (.error f))) := by
  have hempty : ((m.scopes.setTop cell.below).setTop cell.value.saved).isEmpty = true := by
    rw [hsaved]
    rfl
  rw [leaveScope, if_neg (by simp [hforward, hsound]), hpop]
  dsimp only
  rw [if_pos hempty, hsaved]
  rcases popValue_cases h with ⟨v, m', hvalue, hstack⟩ | ⟨f, hvalue, hfatal, hstack⟩
  · rw [hvalue]
    exact ⟨{ m' with scopes := m.scopes.setTop none, resuming := true }, rfl,
      .inl ⟨v, hstack, rfl⟩⟩
  -- a fatal fault discards the pending branches, so the run ends here
  · rw [hvalue]
    refine ⟨{ m with
      scopes := m.scopes.setTop none
      fault := none
      branches := []
      finished := true }, rfl, .inr ⟨f, hfatal, hstack, ?_⟩⟩
    simp only [follow, raise, hfatal, if_true]
    rfl

end leaveScope

/-- The chain that an activation was entered from is still there as long as it stands. -/
theorem Stands.callers {i : Nat} (h : Stands p m signals k n i) (hstart : m.Coherent) :
    (course p m signals n).scopes.chainAt (course p m signals k).scopes.top =
      (course p m signals k).scopes.chain := by
  have hfresh := h.enters.fresh hstart
  have hle := hfresh.nextCell_le
  rw [nextCell_eq] at hle
  apply chainAt_congr
  intro j hj
  rw [h.same hstart (by omega), hfresh.others j (by omega)]

/-- The machine that carries out a return differs from the one of the run in its count of
instructions and in what it knows of the host. -/
theorem Returns.outcome_eq {i : Nat} (h : Returns p m signals n i) (hstart : m.Coherent) :
    ∃ now : Machine, outcome p m signals n = follow now.leaveScope ∧ now.Coherent ∧
      now.scopes = (course p m signals n).scopes ∧ now.stack = (course p m signals n).stack ∧
      now.resuming = false ∧ now.fault = none := by
  obtain ⟨ticks, hstep⟩ := h.carriesOut.step_eq
  have hdispatch := dispatch_at h.carriesOut.running h.carriesOut.instruction
  exact ⟨_, hdispatch.trans (congrArg follow hstep), { coherent_course hstart p signals n with },
    rfl, rfl, h.forward, h.sound⟩

/-- A return leads back to the state that the scope was entered in. -/
theorem returnsFrom_course {i : Nat} (hstart : m.Coherent) (h : Returns p m signals n i)
    (hstands : Stands p m signals k n i) : ReturnsFrom p m signals k n := by
  obtain ⟨cell, hcell, hreturn, hsaved⟩ := hstands.cell hstart
  have hchain := hstands.callers hstart
  obtain ⟨now, houtcome, hcoherent, hscopes, hstack, hforward, hsound⟩ := h.outcome_eq hstart
  have hnext : course p m signals (n + 1) = (outcome p m signals n).machine := rfl
  have hpop : now.scopes.pop? = some (cell.value, now.scopes.setTop cell.below) := by
    rw [hscopes, pop?, h.top, cell?, hcell]
    rfl
  cases htop : (course p m signals k).scopes.top with
  | some place =>
    rw [htop] at hsaved hchain
    rw [follow_leaveScope_caller hforward hsound hpop hsaved] at houtcome
    rw [houtcome] at hnext
    have hcaller := chain_ne_nil (coherent_course hstart p signals k).scopes.toLinked htop
    refine ⟨?_, fun hnil => absurd hnil hcaller, fun _ => ⟨?_, ?_, ?_⟩⟩
    · rw [hnext, ← hchain, ← hscopes]
      exact chain_setTop _ _
    · rw [hnext, houtcome]
      rfl
    · rw [hnext, ← hreturn]
      rfl
    · rw [hnext]
      exact hforward
  | none =>
    rw [htop] at hsaved hchain
    obtain ⟨m', hm', hends⟩ := follow_leaveScope_outermost hcoherent hforward hsound hpop hsaved
    rw [← houtcome, hstack] at hends
    have hback : m' = course p m signals (n + 1) := by
      rcases hends with ⟨v, -, hdone⟩ | ⟨f, -, -, hdone⟩
      · rw [hnext, hdone]
        rfl
      · rw [hnext, hdone]
        rfl
    rw [hback] at hm' hends
    refine ⟨?_, fun _ => ?_, fun hne => absurd hchain.symm hne⟩
    · rw [← hchain, hm', chain_setTop]
      rfl
    · rcases hends with ⟨v, hlist, hdone⟩ | ⟨f, hfatal, hlist, hdone⟩
      · exact .result hlist hdone rfl
      · exact .fault hfatal hlist hdone

/-- Every return leads back to the state that its scope was entered in, whatever was called, left
behind and taken up in between. -/
theorem calls_return (p : Program) (idle : Machine) (settings : Settings) (input : Value)
    (interrupt : Option Interrupt) (signals : Nat → Signals) (n i : Nat)
    (h : Returns p (idle.load settings input interrupt) signals n i) :
    ∃ k, Entered p (idle.load settings input interrupt) signals k n i ∧
      ReturnsFrom p (idle.load settings input interrupt) signals k n := by
  have hstart := coherent_load idle settings input interrupt
  obtain ⟨k, hstands⟩ := stands_course hstart rfl rfl n i (.inl h.top.symm)
  exact ⟨k, hstands.entered, returnsFrom_course hstart h hstands⟩

/-- A function leaves a branch behind and returns; the branch is taken up when the result is
complete, and the function returns once more. -/
def returningTwice : Program where
  name := "twice"
  code := #[.scope 0 0, .call 3, .ret, .scope 1 0, .fork 6, .ret, .ret]
  functions := #[]
  lines := #[]
  natives := {}

/-- The second return of the same activation in `returningTwice`. -/
theorem calls_return_returningTwice :
    Returns returningTwice (load {} {} .null none) (fun _ => {}) 8 1 ∧
      ∃ k, Entered returningTwice (load {} {} .null none) (fun _ => {}) k 8 1 ∧
        ReturnsFrom returningTwice (load {} {} .null none) (fun _ => {}) k 8 := by
  have hreturns : Returns returningTwice (load {} {} .null none) (fun _ => {}) 8 1 := by
    refine ⟨⟨rfl, rfl, ?_⟩, rfl, rfl, rfl⟩
    intro after reason hcanceled
    cases hcanceled
  exact ⟨hreturns, calls_return returningTwice {} {} .null none (fun _ => {}) 8 1 hreturns⟩

end Machine
end QueryMachine
