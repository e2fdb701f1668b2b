import QueryMachine.Proofs.Coherence

/-!
# Instructions keep a machine coherent

One lemma for every operation and every instruction that leaves no branch behind: it is a step
`Forward`. Failing counts as such a step too: what it hands back is as coherent as before.
-/

namespace QueryMachine
namespace Machine

open RewindStack

variable {m m' : Machine} {x : Operand} {v : Value} {fault : Fault}

/-! ## Pushing and popping -/

theorem forward_pushOperand (h : m.Coherent) (hx : x.InScope m.scopes.cells.size) :
    Forward m (m.pushOperand x) :=
  .withStack h (h.stack.toLinked.push x) (.push h.stack.toLinked x)
    (h.operands.push h.stack.toLinked hx)

theorem forward_pushValue (h : m.Coherent) (v : Value) : Forward m (m.pushValue v) :=
  forward_pushOperand h trivial

/-- A pop changes the stack and nothing else. -/
theorem popOperand_eq_ok (hp : m.popOperand = .ok (x, m')) :
    ∃ t, m.stack.pop? = some (x, t) ∧ m' = { m with stack := t } := by
  unfold popOperand at hp
  split at hp
  · rename_i y t hpop
    rw [Except.ok.injEq, Prod.mk.injEq] at hp
    obtain ⟨rfl, rfl⟩ := hp
    exact ⟨t, hpop, rfl⟩
  · cases hp

theorem forward_popOperand (h : m.Coherent) (hp : m.popOperand = .ok (x, m')) :
    Forward m m' ∧ x.InScope m'.scopes.cells.size := by
  obtain ⟨t, hpop, rfl⟩ := popOperand_eq_ok hp
  have hlinked := h.stack.toLinked.of_pop? hpop
  obtain ⟨cell, hcell, rfl, rfl⟩ := pop?_eq_some hpop
  obtain ⟨i, -, hget⟩ := cell?_eq_some hcell
  exact ⟨.withStack h hlinked (.setTop _ _) h.operands, h.operands i cell hget⟩

/-- A popped value was an operand that is one. -/
theorem popValue_eq_ok (hp : m.popValue = .ok (v, m')) :
    m.popOperand = .ok (.value v, m') := by
  unfold popValue at hp
  split at hp
  · cases hp
  · rename_i y rest hpop
    cases y with
    | value w =>
      rw [Operand.toValue, Except.ok.injEq, Prod.mk.injEq] at hp
      obtain ⟨rfl, rfl⟩ := hp
      exact hpop
    | closure pc scope => simp [Operand.toValue] at hp
    | entries rest => simp [Operand.toValue] at hp

theorem forward_popValue (h : m.Coherent) (hp : m.popValue = .ok (v, m')) : Forward m m' :=
  (forward_popOperand h (popValue_eq_ok hp)).1

theorem forward_popValues (h : m.Coherent) {count : Nat} {values : List Value}
    (hp : m.popValues count = .ok (values, m')) : Forward m m' := by
  induction count generalizing m values with
  | zero =>
    rw [popValues, Except.ok.injEq, Prod.mk.injEq] at hp
    obtain ⟨-, rfl⟩ := hp
    exact .refl h
  | succ count ih =>
    rw [popValues] at hp
    split at hp
    · cases hp
    · rename_i v once hv
      have hforward := forward_popValue h hv
      split at hp
      · cases hp
      · rename_i rest last hrest
        rw [Except.ok.injEq, Prod.mk.injEq] at hp
        obtain ⟨-, rfl⟩ := hp
        exact hforward.trans (ih hforward.coherent hrest)

/-- Popping values changes the stack and nothing else. -/
theorem popValues_eq_ok {count : Nat} {values : List Value}
    (hp : m.popValues count = .ok (values, m')) : ∃ t, m' = { m with stack := t } := by
  induction count generalizing m values with
  | zero =>
    rw [popValues, Except.ok.injEq, Prod.mk.injEq] at hp
    obtain ⟨-, rfl⟩ := hp
    exact ⟨m.stack, rfl⟩
  | succ count ih =>
    rw [popValues] at hp
    split at hp
    · cases hp
    · rename_i v once hv
      obtain ⟨t, -, rfl⟩ := popOperand_eq_ok (popValue_eq_ok hv)
      split at hp
      · cases hp
      · rename_i rest last hrest
        rw [Except.ok.injEq, Prod.mk.injEq] at hp
        obtain ⟨-, rfl⟩ := hp
        obtain ⟨t', rfl⟩ := ih hrest
        exact ⟨t', rfl⟩

theorem forward_popPairs (h : m.Coherent) {count : Nat} {following pairs : List (String × Value)}
    (hp : m.popPairs following count = .ok (pairs, m')) : Forward m m' := by
  induction count generalizing m following with
  | zero =>
    rw [popPairs, Except.ok.injEq, Prod.mk.injEq] at hp
    obtain ⟨-, rfl⟩ := hp
    exact .refl h
  | succ count ih =>
    rw [popPairs] at hp
    split at hp
    · cases hp
    · rename_i v once hv
      have honce := forward_popValue h hv
      split at hp
      · cases hp
      · rename_i key twice hkey
        have htwice := forward_popValue honce.coherent hkey
        exact (honce.trans htwice).trans (ih htwice.coherent hp)
      · cases hp

/-! ## Operand instructions -/

theorem forward_dropTop (h : m.Coherent) : Forward m m.dropTop.machine := by
  unfold dropTop
  split
  · exact .refl h
  · rename_i x rest hp
    exact (forward_popOperand h hp).1

theorem forward_duplicate (h : m.Coherent) : Forward m m.duplicate.machine := by
  unfold duplicate
  split
  · exact .refl h
  · rename_i x htop
    obtain ⟨cell, hcell, rfl⟩ := Option.map_eq_some_iff.mp htop
    obtain ⟨i, -, hget⟩ := cell?_eq_some hcell
    exact forward_pushOperand h (h.operands i cell hget)

theorem forward_exchange (h : m.Coherent) : Forward m m.exchange.machine := by
  unfold exchange
  split
  · exact .refl h
  · rename_i x once hx
    obtain ⟨honce, hxs⟩ := forward_popOperand h hx
    split
    · exact .refl h
    · rename_i y twice hy
      obtain ⟨htwice, hys⟩ := forward_popOperand honce.coherent hy
      have hpushx := forward_pushOperand htwice.coherent (hxs.mono htwice.scopes.size_le)
      have hpushy := forward_pushOperand hpushx.coherent (hys.mono hpushx.scopes.size_le)
      exact ((honce.trans htwice).trans hpushx).trans hpushy

theorem forward_replaceTop (h : m.Coherent) (v : Value) :
    Forward m (m.replaceTop v).machine := by
  unfold replaceTop
  split
  · exact .refl h
  · rename_i x rest hp
    obtain ⟨hpop, -⟩ := forward_popOperand h hp
    exact hpop.trans (forward_pushValue hpop.coherent v)

theorem forward_buildObject (h : m.Coherent) (pairs : Nat) :
    Forward m (m.buildObject pairs).machine := by
  unfold buildObject
  split
  · exact .refl h
  · rename_i entries rest hp
    have hpop := forward_popPairs h hp
    exact hpop.trans (forward_pushValue hpop.coherent _)

theorem forward_jumpUnless (h : m.Coherent) (target : Nat) :
    Forward m (m.jumpUnless target).machine := by
  unfold jumpUnless
  split
  · exact .refl h
  · rename_i condition rest hp
    have hpop := forward_popValue h hp
    split
    · exact hpop
    · exact hpop

/-! ## Variables -/

theorem forward_loadVariable (h : m.Coherent) (a : Address) :
    Forward m (m.loadVariable a).machine := by
  unfold loadVariable
  split
  · exact .refl h
  · rename_i place hplace
    apply forward_pushOperand h
    rw [Array.getD_eq_getD_getElem?]
    cases hx : m.registers[place]? with
    | none => trivial
    | some x => exact h.registers place x hx

theorem forward_storeVariable (h : m.Coherent) (a : Address) :
    Forward m (m.storeVariable a).machine := by
  unfold storeVariable
  split
  · exact .refl h
  · rename_i place hplace
    split
    · exact .refl h
    · rename_i x popped hp
      obtain ⟨hpop, hx⟩ := forward_popOperand h hp
      refine hpop.trans (.withRegisters hpop.coherent ?_)
      intro i y hy
      rw [Array.getElem?_setIfInBounds] at hy
      split at hy
      · split at hy
        · rw [← Option.some.inj hy]
          exact hx
        · cases hy
      · exact hpop.coherent.registers i y hy

theorem forward_appendVariable (h : m.Coherent) (a : Address) :
    Forward m (m.appendVariable a).machine := by
  unfold appendVariable
  split
  · exact .refl h
  · rename_i place hplace
    split
    · exact .refl h
    · rename_i v popped hp
      have hpop := forward_popValue h hp
      split
      · refine hpop.trans (.withRegisters hpop.coherent ?_)
        intro i y hy
        rw [Array.getElem?_modify] at hy
        split at hy
        · obtain ⟨z, hz, rfl⟩ := Option.map_eq_some_iff.mp hy
          exact (hpop.coherent.registers i z hz).gather v
        · exact hpop.coherent.registers i y hy
      · exact .refl h
      · exact .refl h

/-! ## Calls -/

theorem forward_callAt (h : m.Coherent) (target : Nat) : Forward m (m.callAt target).machine :=
  .withCall h h.scopes.top_le

theorem forward_pushClosure (h : m.Coherent) (target : Nat) :
    Forward m (m.pushClosure target).machine :=
  forward_pushOperand h h.scopes.top_le

theorem forward_callClosure (h : m.Coherent) : Forward m m.callClosure.machine := by
  unfold callClosure
  split
  · exact .refl h
  · rename_i target scope rest hp
    obtain ⟨hpop, hscope⟩ := forward_popOperand h hp
    exact hpop.trans (.withCall hpop.coherent hscope)
  · exact .refl h

/-! ## Activations -/

section calleeScopes

variable {scopes : RewindStack Activation} {caller : Option Nat}

theorem calleeScopes_linked (h : scopes.Linked) (hcaller : level caller ≤ scopes.cells.size) :
    (calleeScopes scopes caller).Linked := by
  unfold calleeScopes
  split
  · exact h
  · exact (Keeps.nil h).freeze.toLinked.setTop hcaller

theorem calleeScopes_extends (scopes : RewindStack Activation) (caller : Option Nat) :
    scopes.Extends (calleeScopes scopes caller) := by
  unfold calleeScopes
  split
  · exact .refl scopes
  · exact (Extends.freeze scopes).trans (.setTop _ caller)

theorem calleeScopes_cells (scopes : RewindStack Activation) (caller : Option Nat) :
    (calleeScopes scopes caller).cells = scopes.cells := by
  unfold calleeScopes
  split <;> rfl

/-- The new activation lies above the caller's, whichever chain it is linked to. -/
theorem level_top_le_nextCell_calleeScopes (scopes : RewindStack Activation)
    (caller : Option Nat) : level scopes.top ≤ (calleeScopes scopes caller).nextCell := by
  rw [nextCell_eq]
  unfold calleeScopes
  split
  · omega
  · show level scopes.top ≤ max (level caller) (level (higher scopes.top scopes.frozen))
    rw [level_higher]
    omega

/-- The next cell lies above the caller and everything frozen, whichever chain the activation is
linked to. -/
theorem nextCell_le_calleeScopes (scopes : RewindStack Activation) (caller : Option Nat) :
    scopes.nextCell ≤ (calleeScopes scopes caller).nextCell := by
  have htop := level_top_le_nextCell_calleeScopes scopes caller
  have hfrozen := (calleeScopes_extends scopes caller).frozen_le
  have hnext := nextCell_eq (calleeScopes scopes caller)
  rw [nextCell_eq]
  omega

end calleeScopes

/-- A scope is entered from an activation that exists. -/
theorem level_caller_le (h : m.Coherent) (length : Nat) :
    level (m.pendingCall.getD ⟨length, m.scopes.top⟩).caller ≤ m.scopes.cells.size := by
  cases hcall : m.pendingCall with
  | none => exact h.scopes.top_le
  | some call => exact h.call call hcall

theorem growRegisters_inScope {registers : Array Operand} {limit : Nat} (size : Nat)
    (h : ∀ (i : Nat) (x : Operand), registers[i]? = some x → x.InScope limit) :
    ∀ (i : Nat) (x : Operand), (growRegisters registers size)[i]? = some x →
      x.InScope limit := by
  intro i x hx
  unfold growRegisters at hx
  split at hx
  · rw [Array.getElem?_append] at hx
    split at hx
    · exact h i x hx
    · rw [Array.getElem?_replicate] at hx
      split at hx
      · rw [← Option.some.inj hx]
        trivial
      · cases hx
  · exact h i x hx

theorem forward_enterScope (h : m.Coherent) (id : ScopeId) (slots programLength : Nat) :
    Forward m (m.enterScope id slots programLength).machine := by
  have hcaller := level_caller_le h programLength
  generalize hcall : m.pendingCall.getD ⟨programLength, m.scopes.top⟩ = call at hcaller
  have hlinked := calleeScopes_linked h.scopes.toLinked hcaller
  have hcallee := calleeScopes_extends m.scopes call.caller
  have hcells := calleeScopes_cells m.scopes call.caller
  have hsaved : (calleeScopes m.scopes call.caller).Holds
      fun i activation => level activation.saved ≤ i := by
    intro i cell hc
    rw [hcells] at hc
    exact h.saved i cell hc
  -- first the activations, then the registers
  have hscopes := Forward.withScopes h
    (hlinked.push ⟨id, m.offset, call.returnPc, m.scopes.top⟩)
    (hcallee.trans (.push hlinked _))
    (hsaved.push hlinked (level_top_le_nextCell_calleeScopes m.scopes call.caller))
  have hregisters := Forward.withRegisters hscopes.coherent
    (growRegisters_inScope (m.offset + slots) hscopes.coherent.registers)
  have hdone := hscopes.trans hregisters
  unfold enterScope
  rw [hcall]
  refine ⟨{ hdone.coherent with call := fun c hc => by cases hc }, rfl, hdone.stack, hdone.paths,
    hdone.scopes, ?_, rfl⟩
  exact Nat.le_add_right m.offset slots

theorem forward_leaveScope (h : m.Coherent) : Forward m m.leaveScope.machine := by
  unfold leaveScope
  split
  · exact .refl h
  · split
    · exact .refl h
    · rename_i activation below hpop
      obtain ⟨cell, hcell, hact, rfl⟩ := pop?_eq_some hpop
      obtain ⟨i, htop, hget⟩ := cell?_eq_some hcell
      -- a caller is older than what it calls
      have hsaved : level activation.saved ≤ m.scopes.cells.size := by
        have hle := h.saved i cell hget
        have hi := h.scopes.top_le
        rw [htop, level_some] at hi
        rw [hact]
        omega
      -- with or without an item, the scopes go back to the caller
      have hscopes : ∀ {m₁ : Machine}, Forward m m₁ → m₁.scopes = m.scopes →
          Forward m { m₁ with scopes := m.scopes.setTop activation.saved } := by
        intro m₁ hforward hsame
        apply hforward.trans
        rw [← hsame]
        refine .withScopes hforward.coherent (hforward.coherent.scopes.toLinked.setTop ?_)
          (.setTop _ _) hforward.coherent.saved
        rwa [hsame]
      dsimp only
      split
      · split
        · exact hscopes (.refl h) rfl
        · rename_i v popped hp
          obtain ⟨t, -, rfl⟩ := popOperand_eq_ok (popValue_eq_ok hp)
          exact hscopes (forward_popValue h hp) rfl
      · exact hscopes (.refl h) rfl

/-! ## Recorded paths -/

theorem tracksPath_iff (h : m.Coherent) : m.tracksPath = true ↔ m.paths.chain ≠ [] := by
  rw [tracksPath, isEmpty_eq h.paths.toLinked, toList]
  cases m.paths.chain with
  | nil => simp
  | cons first rest => simp

/-- A step is recorded only while a path is open. -/
theorem forward_pushStep (h : m.Coherent) (htracks : m.tracksPath = true)
    (component v : Value) :
    Forward m { m with paths := m.paths.push (.step component v) } := by
  obtain ⟨i, hi⟩ := h.brackets.exists_start ((tracksPath_iff h).mp htracks)
  refine .withPaths h (h.paths.toLinked.push _) (.push h.paths.toLinked _) ?_
  have hbrackets := h.brackets
  rw [hi] at hbrackets ⊢
  rw [chain_push h.paths.toLinked]
  exact .step _ component v hbrackets

theorem forward_openPath (h : m.Coherent) : Forward m m.openPath.machine := by
  unfold openPath
  split
  · exact .refl h
  · split
    · exact .refl h
    · refine .withPaths h (h.paths.toLinked.push _) (.push h.paths.toLinked _) ?_
      rw [chain_push h.paths.toLinked]
      exact .start _ _ h.brackets

/-- The innermost open path lies in the chain, and closing it leaves the path around it. -/
theorem innermost_path (h : m.Coherent) {i : Nat} (hi : m.pathDepth = some i) :
    ∃ above v outer paths, m.paths.chain = above ++ (i, .start v outer) :: paths.chain ∧
      (∀ r ∈ above, ∃ component w, r.2 = .step component w) ∧
      (m.paths.setTop (some i)).pop? = some (.start v outer, paths) ∧
      paths.Linked ∧ m.paths.Extends paths ∧ Bracketed paths.chain outer := by
  have hbrackets := h.brackets
  rw [hi] at hbrackets
  obtain ⟨above, v, outer, rest, hchain, habove, hrest⟩ := hbrackets.split
  -- cutting back to the start is moving the top to its cell
  obtain ⟨cell, hcell, hvalue, hbelow⟩ := chainAt_eq_append h.paths.toLinked hchain
  have hlinked := h.paths.toLinked
  have hle := hlinked.below_le i cell hcell
  have hsize : i < m.paths.cells.size := by
    rw [Array.getElem?_eq_some_iff] at hcell
    exact hcell.1
  refine ⟨above, v, outer, m.paths.setTop cell.below, ?_, habove, ?_, hlinked.setTop (by omega),
    .setTop _ _, ?_⟩
  · rw [chain_setTop, hbelow, hchain]
  · rw [← hvalue]
    show ((m.paths.setTop (some i)).cell? (some i)).map _ = _
    rw [show (m.paths.setTop (some i)).cell? (some i) = some cell from hcell]
    rfl
  · rw [chain_setTop, hbelow]
    exact hrest

theorem forward_closePath (h : m.Coherent) : Forward m m.closePath.machine := by
  unfold closePath
  split
  · exact .refl h
  · rename_i start hstart
    split
    · exact .refl h
    · rename_i v popped hp
      have hpop := forward_popValue h hp
      -- popping the value has left the path alone
      obtain ⟨t, -, rfl⟩ := popOperand_eq_ok (popValue_eq_ok hp)
      obtain ⟨above, w, outer, paths, hchain, -, hcut, hlinked, hext, hbrackets⟩ :=
        innermost_path hpop.coherent hstart
      split
      · exact .refl h
      · dsimp only
        rw [hcut]
        have hclosed := Forward.withPaths hpop.coherent hlinked hext hbrackets
        exact (hpop.trans hclosed).trans (forward_pushValue hclosed.coherent _)

/-! ## Native calls -/

/-- Either nothing is recorded, or a path is open and goes on by a step. -/
theorem recordStep_eq_ok {role : Role} {args : List Value} {output : Value}
    (hr : m.recordStep role args output = .ok m') :
    m' = m ∨ m.tracksPath = true ∧
      ∃ component, m' = { m with paths := m.paths.push (.step component output) } := by
  unfold recordStep at hr
  split at hr
  · obtain rfl := Except.ok.inj hr
    exact .inl rfl
  · rename_i htracks
    split at hr
    · rename_i subject component hsubject hcomponent
      split at hr
      · obtain rfl := Except.ok.inj hr
        exact .inr ⟨by simpa using htracks, component, rfl⟩
      · cases hr
    · obtain rfl := Except.ok.inj hr
      exact .inl rfl

theorem recordStep_forward (h : m.Coherent) {role : Role} {args : List Value} {output : Value}
    (hr : m.recordStep role args output = .ok m') : Forward m m' := by
  rcases recordStep_eq_ok hr with rfl | ⟨htracks, component, rfl⟩
  · exact .refl h
  · exact forward_pushStep h htracks component output

theorem popCall_forward (h : m.Coherent) {argc : Nat} {input : Value} {args : List Value}
    (hp : m.popCall argc = .ok (input, args, m')) : Forward m m' := by
  unfold popCall at hp
  split at hp
  · cases hp
  · rename_i v once hv
    have honce := forward_popValue h hv
    split at hp
    · cases hp
    · rename_i values rest hvalues
      rw [Except.ok.injEq, Prod.mk.injEq, Prod.mk.injEq] at hp
      obtain ⟨-, -, rfl⟩ := hp
      exact honce.trans (forward_popValues honce.coherent hvalues)

theorem popCall_eq_ok {argc : Nat} {input : Value} {args : List Value}
    (hp : m.popCall argc = .ok (input, args, m')) : ∃ t, m' = { m with stack := t } := by
  unfold popCall at hp
  split at hp
  · cases hp
  · rename_i v once hv
    obtain ⟨t, -, rfl⟩ := popOperand_eq_ok (popValue_eq_ok hv)
    split at hp
    · cases hp
    · rename_i values rest hvalues
      rw [Except.ok.injEq, Prod.mk.injEq, Prod.mk.injEq] at hp
      obtain ⟨-, -, rfl⟩ := hp
      obtain ⟨t', rfl⟩ := popValues_eq_ok hvalues
      exact ⟨t', rfl⟩

/-- Raising a flag changes the signals and nothing else. -/
theorem tripFlag_eq (m : Machine) (table : NativeTable) (id : NativeId) (argc : Nat) :
    ∃ signals, m.tripFlag table id argc = { m with signals } := by
  unfold tripFlag
  split
  · exact ⟨_, rfl⟩
  · exact ⟨m.signals, rfl⟩

theorem forward_tripFlag (h : m.Coherent) (table : NativeTable) (id : NativeId) (argc : Nat) :
    Forward m (m.tripFlag table id argc) := by
  obtain ⟨signals, heq⟩ := tripFlag_eq m table id argc
  rw [heq]
  exact .of_memory h rfl

theorem forward_callNative (h : m.Coherent) (table : NativeTable) (id : NativeId)
    (argc : Nat) : Forward m (m.callNative table id argc).machine := by
  unfold callNative
  split
  · exact .refl h
  · rename_i input args popped hp
    have hpop := popCall_forward h hp
    have hcalled := hpop.trans (forward_tripFlag hpop.coherent table id argc)
    dsimp only
    split
    · exact hcalled
    · rename_i output hcall
      split
      · exact hcalled
      · rename_i recorded hr
        have hrecorded := recordStep_forward hcalled.coherent hr
        exact (hcalled.trans hrecorded).trans (forward_pushValue hrecorded.coherent output)

end Machine
end QueryMachine
