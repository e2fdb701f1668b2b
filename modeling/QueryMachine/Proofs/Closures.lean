import QueryMachine.Proofs.Calls

/-!
# Closures find the scopes that they were made in

A closure is a position to call and a bare cell of the activations. Cells are used again, so the
cell alone says nothing; but as long as the machine can still reach it by links from a root, no
push comes down to it, and everything below it stays as it was.

* `cells_held`: what is held all the time is not overwritten;
* `closure_resolves`: so a call through the closure links the new activation to the chain that the
  closure was made in, and variables of other scopes have the registers that they had there.
-/

namespace QueryMachine

open RewindStack

namespace Machine

variable {m : Machine} {p : Program} {signals : Nat → Signals} {k n i : Nat}

/-! ## Activations that are held -/

/-- The activation in a cell can be reached from a root, by links to lexical parents and to
callers. -/
def IsHeld (m : Machine) (i : Nat) : Prop :=
  ∃ place, IsRoot m place ∧ Reaches m.scopes place i

/-- No push reaches down to an activation that is held. -/
theorem IsHeld.lt_nextCell (hheld : IsHeld m i) (h : m.Coherent) : i < m.scopes.nextCell := by
  obtain ⟨place, hroot, hreaches⟩ := hheld
  exact Nat.lt_of_lt_of_le (hreaches.lt_level h.descends) (hroot.level_le h)

/-- If the current activation of machine `k` is held up to machine `n`, then neither it nor
anything below it has been overwritten. -/
theorem cells_held (hstart : m.Coherent) (hle : k ≤ n)
    (hheld : ∀ t, k < t → t ≤ n → ∀ j, (course p m signals k).scopes.top = some j →
      IsHeld (course p m signals t) j) :
    ∀ j < level (course p m signals k).scopes.top,
      (course p m signals n).scopes.cells[j]? = (course p m signals k).scopes.cells[j]? := by
  intro j hj
  refine cells_stay hstart hle fun t hkt htn henters => ?_
  have hcoherent := coherent_course hstart p signals t
  have hfresh := (henters.fresh hstart).nextCell_le
  by_cases hfirst : t = k
  · rw [hfirst, nextCell_eq] at hfresh
    omega
  · cases htop : (course p m signals k).scopes.top with
    | none =>
      rw [htop, level_none] at hj
      omega
    | some top =>
      have hlt := (hheld t (by omega) (by omega) top htop).lt_nextCell hcoherent
      rw [htop, level_some] at hj
      omega

/-! ## Activations that have been entered -/

/-- Only one dispatch has entered the scope whose activation lies in a cell. -/
theorem Entered.unique {k' : Nat} (h : Entered p m signals k n i)
    (h' : Entered p m signals k' n i) : k = k' := by
  rcases Nat.lt_trichotomy k k' with hlt | heq | hgt
  · exact absurd h'.enters (h.last k' hlt h'.lt)
  · exact heq
  · exact absurd h.enters (h'.last k hgt h.lt)

/-- Whenever an activation is current, the chain is the one that it was entered on. -/
theorem chain_entered (hstart : m.Coherent) (hempty : m.scopes.top = none)
    (hnone : m.branches = []) (h : Entered p m signals k n i)
    (htop : (course p m signals n).scopes.top = some i) :
    (course p m signals n).scopes.chain = (course p m signals (k + 1)).scopes.chain := by
  obtain ⟨k', hstands⟩ := stands_course hstart hempty hnone n i (.inl htop.symm)
  obtain rfl := h.unique hstands.entered
  rw [chain_eq_chainAt, chain_eq_chainAt, htop, h.enters.top]
  apply chainAt_congr
  intro j hj
  exact hstands.same hstart (by rw [level_some] at hj; omega)

/-! ## Calling a closure -/

/-- A closure over the scope `id` is made in dispatch `k` of a run and called in dispatch `n`; its
activation takes the cell `i`. -/
structure ClosureCall (p : Program) (m : Machine) (signals : Nat → Signals) (k n i target : Nat)
    (id : ScopeId) : Prop where
  lt : k < n
  entry : ∃ slots, p.at? target = some (.scope id slots)
  captures : CarriesOut p ((course p m signals k).withSignals (signals k)) (.pushPc target)
  calls : CarriesOut p ((course p m signals n).withSignals (signals n)) .callPc
  closure : (course p m signals n).stack.top? =
    some (.closure target (course p m signals k).scopes.top)
  enters : Enters p m signals (n + 1) i

/-- The activations that a callee sees are those of the chain that it was called through. -/
theorem chain_calleeScopes (scopes : RewindStack Activation) (caller : Option Nat) :
    (calleeScopes scopes caller).chain = scopes.chainAt caller := by
  have htop : (calleeScopes scopes caller).top = caller := by
    unfold calleeScopes
    split
    · rename_i heq
      exact heq.symm
    · rfl
  rw [chain_eq_chainAt, htop]
  exact chainAt_congr fun j _ => by rw [calleeScopes_cells]

/-- A scope instruction puts its activation on the chain of the pending call. -/
theorem chain_calleeEntered (h : m.Coherent) {call : PendingCall}
    (hcall : m.pendingCall = some call) (id : ScopeId) (length : Nat) :
    (m.calleeEntered id length).chain =
      ((calleeScopes m.scopes call.caller).nextCell,
        ⟨id, m.offset, call.returnPc, m.scopes.top⟩) :: m.scopes.chainAt call.caller := by
  have hlinked := calleeScopes_linked h.scopes.toLinked (h.call call hcall)
  rw [calleeEntered, hcall, Option.getD_some, chain_push hlinked, chain_calleeScopes]

/-- Calling a closure sets out on its code, from the activation that it was made in. -/
theorem callClosure_eq {target : Nat} {scope : Option Nat}
    (htop : m.stack.top? = some (.closure target scope)) :
    ∃ t, m.callClosure =
      .jump { m with stack := t, pendingCall := some ⟨m.pc, scope⟩ } target := by
  obtain ⟨cell, hcell, hvalue⟩ := Option.map_eq_some_iff.mp htop
  refine ⟨m.stack.setTop cell.below, ?_⟩
  have hpop : m.popOperand =
      .ok (.closure target scope, { m with stack := m.stack.setTop cell.below }) := by
    rw [popOperand, pop?, hcell, Option.map_some, hvalue]
    rfl
  rw [callClosure, hpop]

/-- The machine that is about to enter the scope of a closure. -/
theorem ClosureCall.called {target : Nat} {id : ScopeId}
    (h : ClosureCall p m signals k n i target id) :
    (course p m signals (n + 1)).pc = target ∧
      (course p m signals (n + 1)).scopes = (course p m signals n).scopes ∧
      (course p m signals (n + 1)).pendingCall =
        some ⟨(course p m signals n).pc, (course p m signals k).scopes.top⟩ := by
  obtain ⟨ticks, hstep⟩ := h.calls.step_eq
  obtain ⟨t, hcall⟩ := callClosure_eq
    (m := { (course p m signals n).withSignals (signals n) with ticks }) h.closure
  rw [course, dispatch_at h.calls.running h.calls.instruction, hstep, execute, hcall]
  exact ⟨rfl, rfl, rfl⟩

/-- Variables of other scopes than `id` are found in `m` where they are in `old`: in the same
activation, and so in the same register of any register file. -/
def ResolvesLike (id : ScopeId) (old m : Machine) : Prop :=
  ∀ a : Address, a.scope ≠ id →
    m.scopes.find? (·.scope == a.scope) = old.scopes.find? (·.scope == a.scope) ∧
      m.register a = register { old with registers := m.registers } a

/-- One more activation of its own scope does not hide the activations of other scopes. -/
theorem resolvesLike_of_chain {old : Machine} {a : Activation} (h : m.Coherent)
    (hold : old.Coherent) (hchain : m.scopes.chain = (i, a) :: old.scopes.chain) :
    ResolvesLike a.scope old m := by
  intro address hother
  have hfind : m.scopes.find? (·.scope == address.scope) =
      old.scopes.find? (·.scope == address.scope) := by
    rw [find?_eq h.scopes.toLinked, find?_eq hold.scopes.toLinked, toList, hchain, List.map_cons,
      List.find?_cons_of_neg (by simpa using Ne.symm hother)]
    rfl
  refine ⟨hfind, ?_⟩
  rw [register, register, hfind]

/-- A call through a closure puts the new activation on the chain that the closure was made in, if
that has been held ever since. Whenever this activation is current, other variables are found
where the closure was made. -/
theorem closure_resolves (p : Program) (idle : Machine) (settings : Settings) (input : Value)
    (interrupt : Option Interrupt) (signals : Nat → Signals) {k n i target : Nat} {id : ScopeId}
    (h : ClosureCall p (idle.load settings input interrupt) signals k n i target id)
    (hheld : ∀ t, k < t → t ≤ n → ∀ j,
      (course p (idle.load settings input interrupt) signals k).scopes.top = some j →
      IsHeld (course p (idle.load settings input interrupt) signals t) j) :
    (∃ a, a.scope = id ∧
      (course p (idle.load settings input interrupt) signals (n + 2)).scopes.chain =
        (i, a) :: (course p (idle.load settings input interrupt) signals k).scopes.chain) ∧
    ∀ t, Entered p (idle.load settings input interrupt) signals (n + 1) t i →
      (course p (idle.load settings input interrupt) signals t).scopes.top = some i →
      ResolvesLike id (course p (idle.load settings input interrupt) signals k)
        (course p (idle.load settings input interrupt) signals t) := by
  have hstart := coherent_load idle settings input interrupt
  have hempty : (idle.load settings input interrupt).scopes.top = none := rfl
  have hnone : (idle.load settings input interrupt).branches = [] := rfl
  generalize idle.load settings input interrupt = m at *
  have hcoherent := coherent_course hstart p signals
  -- the chain that the closure was made in is still there when it is called
  have hchain : (course p m signals n).scopes.chainAt (course p m signals k).scopes.top =
      (course p m signals k).scopes.chain :=
    chainAt_congr (cells_held hstart (Nat.le_of_lt h.lt) hheld)
  have hentered : ∃ a : Activation, a.scope = id ∧ (course p m signals (n + 2)).scopes.chain =
      (i, a) :: (course p m signals k).scopes.chain := by
    obtain ⟨hpc, hscopes, hcall⟩ := h.called
    obtain ⟨slots, hentry⟩ := h.entry
    obtain ⟨id', slots', hcarries⟩ := h.enters.carriesOut
    -- what is entered is the scope of the closure
    have hat := hcarries.instruction
    rw [show ((course p m signals (n + 1)).withSignals (signals (n + 1))).pc = target from hpc,
      hentry, Option.some.injEq, Instruction.scope.injEq] at hat
    rw [← hat.1] at hcarries
    have hnew := chain_calleeEntered (hcoherent (n + 1)) hcall id p.length
    rw [← hcarries.entered, hscopes, hchain] at hnew
    have hi : (course p m signals (n + 2)).scopes.top = _ := h.enters.top
    rw [hcarries.entered, calleeEntered, push_top, hcall, hscopes, Option.getD_some,
      Option.some.injEq] at hi
    rw [hi] at hnew
    exact ⟨_, rfl, hnew⟩
  refine ⟨hentered, fun t ht htop => ?_⟩
  obtain ⟨a, rfl, hnew⟩ := hentered
  have hsame := chain_entered hstart hempty hnone ht htop
  exact resolvesLike_of_chain (hcoherent t) (hcoherent k) (hsame.trans hnew)

/-- A closure over the variables of one activation is called from a second activation of the same
scope. -/
def capturingProgram : Program where
  name := "capture"
  code := #[.scope 0 1, .pushPc 7, .call 4, .ret, .scope 0 1, .callPc, .ret, .scope 1 0,
    .load ⟨0, 0⟩, .ret]
  functions := #[]
  lines := #[]
  natives := {}

/-- The call of the closure in `capturingProgram`. -/
theorem closure_resolves_capturingProgram :
    ClosureCall capturingProgram (load {} {} .null none) (fun _ => {}) 1 4 2 7 1 ∧
      ∃ a, a.scope = 1 ∧
        (course capturingProgram (load {} {} .null none) (fun _ => {}) 6).scopes.chain =
          (2, a) ::
            (course capturingProgram (load {} {} .null none) (fun _ => {}) 1).scopes.chain := by
  have hcall : ClosureCall capturingProgram (load {} {} .null none) (fun _ => {}) 1 4 2 7 1 := by
    refine ⟨by decide, ⟨0, rfl⟩, ⟨rfl, rfl, ?_⟩, ⟨rfl, rfl, ?_⟩, rfl,
      ⟨⟨1, 0, rfl, rfl, ?_⟩, rfl⟩⟩
    all_goals
      intro after reason hcanceled
      cases hcanceled
  refine ⟨hcall, (closure_resolves capturingProgram {} {} .null none (fun _ => {}) hcall ?_).1⟩
  intro t hkt htn j hj
  obtain rfl : 0 = j := Option.some.inj hj
  -- the first activation is current until the second one is entered, and below it from then on
  obtain rfl | rfl | rfl : t = 2 ∨ t = 3 ∨ t = 4 := by omega
  · exact ⟨some 0, .inl rfl, .here 0⟩
  · exact ⟨some 0, .inl rfl, .here 0⟩
  · exact ⟨some 1, .inl rfl, .lexical rfl (.here 0)⟩

end Machine
end QueryMachine
