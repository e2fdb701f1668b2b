import QueryMachine.Proofs.RewindStack
import QueryMachine.Machine.Run

/-!
# Coherent machines

The cursors of a machine are plain numbers, held in branch points, activations, closures and
path records. `Machine.Coherent` says that all of them can be followed:

* each of the three stacks keeps the savepoints of the pending branches;
* a closure, a register, a pending call and an activation name activations that exist;
* `pathDepth` is the cell in which the innermost open path starts, now and at every branch.

`Machine.Forward m m'` is what an instruction does to a coherent machine as long as no branch is
left behind or taken up: it stays coherent, and whatever is frozen stays as it is.
-/

namespace QueryMachine

open RewindStack

/-! ## Open paths -/

/-- A chain of path records with the cell in which its innermost path starts. Each start
remembers the cell of the one around it, and a step only goes on from an open path. -/
inductive Bracketed : List (Nat × PathRecord) → Option Nat → Prop where
  | empty : Bracketed [] none
  | start {rest : List (Nat × PathRecord)} {outer : Option Nat} (i : Nat) (v : Value)
      (h : Bracketed rest outer) : Bracketed ((i, .start v outer) :: rest) (some i)
  | step {rest : List (Nat × PathRecord)} {i : Nat} (j : Nat) (component v : Value)
      (h : Bracketed rest (some i)) : Bracketed ((j, .step component v) :: rest) (some i)

namespace Bracketed

/-- The innermost start, with only steps above it and the enclosing paths below. -/
theorem split {chain : List (Nat × PathRecord)} {i : Nat} (h : Bracketed chain (some i)) :
    ∃ above v outer rest, chain = above ++ (i, .start v outer) :: rest ∧
      (∀ r ∈ above, ∃ component w, r.2 = .step component w) ∧ Bracketed rest outer := by
  -- above the first start of the chain there are only steps
  induction chain with
  | nil => cases h
  | cons first chain ih =>
    cases h with
    | start i v h =>
      refine ⟨[], v, _, chain, rfl, ?_, h⟩
      intro r hr
      cases hr
    | step j component w h =>
      obtain ⟨above, v, outer, rest, rfl, hsteps, hrest⟩ := ih h
      refine ⟨(j, .step component w) :: above, v, outer, rest, rfl, ?_, hrest⟩
      intro r hr
      cases hr with
      | head => exact ⟨component, w, rfl⟩
      | tail _ hr => exact hsteps r hr

/-- A path is open exactly when there is a record. -/
theorem exists_start {chain : List (Nat × PathRecord)} {depth : Option Nat}
    (h : Bracketed chain depth) (hne : chain ≠ []) : ∃ i, depth = some i := by
  cases h with
  | empty => exact absurd rfl hne
  | start i v h => exact ⟨i, rfl⟩
  | step j component v h => exact ⟨_, rfl⟩

end Bracketed

/-! ## Coherence -/

/-- The activation that a closure leads to exists. -/
def Operand.InScope (size : Nat) : Operand → Prop
  | .closure _ scope => level scope ≤ size
  | _ => True

theorem Operand.InScope.mono {size size' : Nat} {x : Operand} (hle : size ≤ size')
    (h : x.InScope size) : x.InScope size' := by
  cases x with
  | closure pc scope => exact Nat.le_trans h hle
  | value v => trivial
  | entries rest => trivial

theorem Operand.InScope.gather {size : Nat} {x : Operand} (v : Value) (h : x.InScope size) :
    (x.gather v).InScope size := by
  unfold Operand.gather
  split
  · trivial
  · exact h

namespace Machine

variable {m m' m'' : Machine}

/-- Every cursor of the machine can be followed. -/
structure Coherent (m : Machine) : Prop where
  stack : m.stack.Keeps (m.branches.map (·.stack))
  paths : m.paths.Keeps (m.branches.map (·.paths))
  scopes : m.scopes.Keeps (m.branches.map (·.scopes))
  operands : m.stack.Holds fun _ x => x.InScope m.scopes.cells.size
  registers : ∀ (i : Nat) (x : Operand), m.registers[i]? = some x → x.InScope m.scopes.cells.size
  call : ∀ call, m.pendingCall = some call → level call.caller ≤ m.scopes.cells.size
  saved : m.scopes.Holds fun i activation => level activation.saved ≤ i
  brackets : Bracketed m.paths.chain m.pathDepth
  branchBrackets : ∀ b ∈ m.branches, Bracketed (m.paths.chainAt b.paths.top) b.pathDepth

/-- A coherent machine went on without leaving a branch behind or taking one up. -/
structure Forward (m m' : Machine) : Prop where
  coherent : m'.Coherent
  branches : m'.branches = m.branches
  stack : m.stack.Extends m'.stack
  paths : m.paths.Extends m'.paths
  scopes : m.scopes.Extends m'.scopes
  offset_le : m.offset ≤ m'.offset
  interrupt : m'.interrupt = m.interrupt

/-- The part of a machine that coherence speaks of. -/
def memory (m : Machine) :=
  (m.stack, m.paths, m.scopes, m.registers, m.offset, m.branches, m.pathDepth, m.pendingCall,
    m.interrupt)

namespace Forward

theorem trans (h : Forward m m') (h' : Forward m' m'') : Forward m m'' where
  coherent := h'.coherent
  branches := h'.branches.trans h.branches
  stack := h.stack.trans h'.stack
  paths := h.paths.trans h'.paths
  scopes := h.scopes.trans h'.scopes
  offset_le := Nat.le_trans h.offset_le h'.offset_le
  interrupt := h'.interrupt.trans h.interrupt

/-- What does not touch the memory is a step forward. -/
theorem of_memory (h : m.Coherent) (heq : m'.memory = m.memory) : Forward m m' := by
  obtain ⟨pc, stack, paths, scopes, registers, offset, branches, resuming, fault, pathDepth,
    pendingCall, finished, ticks, interrupt, signals, settings⟩ := m
  obtain ⟨pc', stack', paths', scopes', registers', offset', branches', resuming', fault',
    pathDepth', pendingCall', finished', ticks', interrupt', signals', settings'⟩ := m'
  simp only [memory, Prod.mk.injEq] at heq
  obtain ⟨rfl, rfl, rfl, rfl, rfl, rfl, rfl, rfl, rfl⟩ := heq
  exact ⟨⟨h.stack, h.paths, h.scopes, h.operands, h.registers, h.call, h.saved, h.brackets,
    h.branchBrackets⟩, rfl, .refl _, .refl _, .refl _, Nat.le_refl _, rfl⟩

theorem refl (h : m.Coherent) : Forward m m :=
  of_memory h rfl

/-! ## One part at a time -/

/-- Replace the operand stack by one that extends it. -/
theorem withStack (h : m.Coherent) {t : OperandStack} (hlinked : t.Linked)
    (hext : m.stack.Extends t)
    (hscope : t.Holds fun _ x => x.InScope m.scopes.cells.size) :
    Forward m { m with stack := t } where
  coherent := { h with stack := h.stack.of_extends hlinked hext, operands := hscope }
  branches := rfl
  stack := hext
  paths := .refl _
  scopes := .refl _
  offset_le := Nat.le_refl _
  interrupt := rfl

/-- Replace the registers. -/
theorem withRegisters (h : m.Coherent) {registers : Array Operand}
    (hscope : ∀ (i : Nat) (x : Operand), registers[i]? = some x → x.InScope m.scopes.cells.size) :
    Forward m { m with registers } where
  coherent := { h with registers := hscope }
  branches := rfl
  stack := .refl _
  paths := .refl _
  scopes := .refl _
  offset_le := Nat.le_refl _
  interrupt := rfl

/-- Set out on a call from an activation that exists. -/
theorem withCall (h : m.Coherent) {call : PendingCall}
    (hcaller : level call.caller ≤ m.scopes.cells.size) :
    Forward m { m with pendingCall := some call } where
  coherent := { h with call := fun c hc => by rwa [← Option.some.inj hc] }
  branches := rfl
  stack := .refl _
  paths := .refl _
  scopes := .refl _
  offset_le := Nat.le_refl _
  interrupt := rfl

/-- Replace the recorded path by one that extends it. -/
theorem withPaths (h : m.Coherent) {t : RewindStack PathRecord} {depth : Option Nat}
    (hlinked : t.Linked) (hext : m.paths.Extends t) (hbrackets : Bracketed t.chain depth) :
    Forward m { m with paths := t, pathDepth := depth } where
  coherent :=
    { h with
      paths := h.paths.of_extends hlinked hext
      brackets := hbrackets
      branchBrackets := by
        intro b hb
        -- what the branches go back to is frozen
        rw [h.paths.chainAt_eq hext (List.mem_map_of_mem hb)]
        exact h.branchBrackets b hb }
  branches := rfl
  stack := .refl _
  paths := hext
  scopes := .refl _
  offset_le := Nat.le_refl _
  interrupt := rfl

/-- Replace the activations by those of a stack that extends them. -/
theorem withScopes (h : m.Coherent) {t : RewindStack Activation} (hlinked : t.Linked)
    (hext : m.scopes.Extends t)
    (hsaved : t.Holds fun i activation => level activation.saved ≤ i) :
    Forward m { m with scopes := t } where
  coherent :=
    { h with
      scopes := h.scopes.of_extends hlinked hext
      -- the buffer only grows, so whatever led to an activation still does
      operands := h.operands.mono fun _ _ hx => hx.mono hext.size_le
      registers := fun i x hx => (h.registers i x hx).mono hext.size_le
      call := fun c hc => Nat.le_trans (h.call c hc) hext.size_le
      saved := hsaved }
  branches := rfl
  stack := .refl _
  paths := .refl _
  scopes := hext
  offset_le := Nat.le_refl _
  interrupt := rfl

end Forward

end Machine
end QueryMachine
