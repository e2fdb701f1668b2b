import QueryMachine.Proofs.CallOrder

/-!
# Machines that look alike

A program and the same program without its handlers leave different branches behind, and so their
activations come to lie in different cells. An instruction cannot tell: it looks at the activations
from the top down, at the operands, the registers and the recorded path, and a cell is only named
by closures, which are not called, and by activations for their callers.

* `bare`: what shows of an operand, or of an activation, is all but the cell that it names;
* `AlikeBehind`: machines that turn to the same place when their continuations end, up to handlers;
* `Alike`: machines that differ in cells, and in the branches of handlers.
-/

namespace QueryMachine

open RewindStack

/-! ## Programs without handlers -/

/-- Whether the branch of an instruction is there for faults only. -/
def Instruction.isHandler : Instruction → Bool
  | .forkOpt _ | .forkLabel _ => true
  | _ => false

/-- The instruction, unless it is a handler. -/
def Instruction.withoutHandler : Instruction → Instruction
  | .forkOpt _ | .forkLabel _ => .nop
  | i => i

theorem Instruction.withoutHandler_eq {i : Instruction} (hi : i.isHandler = false) :
    i.withoutHandler = i := by
  cases i with
  | forkOpt | forkLabel => cases hi
  | _ => rfl

theorem Instruction.withoutHandler_eq_nop {i : Instruction} (hi : i.isHandler = true) :
    i.withoutHandler = .nop := by
  cases i with
  | forkOpt | forkLabel => rfl
  | _ => cases hi

namespace Program

/-- The program with nothing in the place of its handlers. -/
def withoutHandlers (p : Program) : Program :=
  { p with code := p.code.map (·.withoutHandler) }

/-- Whether there is a handler at a position. -/
def handlesAt (p : Program) (pc : Nat) : Bool :=
  (p.at? pc).any (·.isHandler)

theorem at?_withoutHandlers (p : Program) (pc : Nat) :
    p.withoutHandlers.at? pc = (p.at? pc).map (·.withoutHandler) :=
  Array.getElem?_map

theorem length_withoutHandlers (p : Program) : p.withoutHandlers.length = p.length :=
  Array.size_map

end Program

/-! ## What shows of an operand and of an activation -/

/-- The operand without the cell that a closure names. -/
def Operand.bare : Operand → Operand
  | .closure pc _ => .closure pc none
  | x => x

/-- The activation without the cell of its caller. -/
def Activation.bare (a : Activation) : Activation :=
  { a with saved := none }

theorem Activation.base_congr {x y : Activation} (h : y.bare = x.bare) : y.base = x.base :=
  (Activation.mk.inj h).2.1

theorem Activation.returnPc_congr {x y : Activation} (h : y.bare = x.bare) :
    y.returnPc = x.returnPc :=
  (Activation.mk.inj h).2.2.1

namespace Operand

variable {x y : Operand}

theorem toValue_congr (h : y.bare = x.bare) : y.toValue = x.toValue := by
  have hbare : ∀ z : Operand, z.bare.toValue = z.toValue := fun z => by cases z <;> rfl
  rw [← hbare y, h, hbare x]

theorem gather_bare (v : Value) (x : Operand) : (x.gather v).bare = x.bare.gather v := by
  cases x with
  | value w => cases w <;> rfl
  | closure pc scope => rfl
  | entries rest => rfl

theorem eq_of_bare_value {v : Value} (h : x.bare = .value v) : x = .value v := by
  cases x with
  | value w => exact h
  | closure pc scope => cases h
  | entries rest => cases h

end Operand

/-- The activations from a cell downwards. -/
def framesAt (s : RewindStack Activation) (place : Option Nat) : List Activation :=
  (s.listAt place).map (·.bare)

/-- The current activations, from the top down. -/
def frames (s : RewindStack Activation) : List Activation :=
  framesAt s s.top

section frames

variable {s t : RewindStack Activation}

theorem framesAt_of_cells (h : t.cells = s.cells) : framesAt t = framesAt s := by
  funext place
  have hlist : t.listAt place = s.listAt place := listAt_congr fun i _ => by rw [h]
  rw [framesAt, framesAt, hlist]

theorem frames_freeze (s : RewindStack Activation) : frames s.freeze = frames s := by
  have hcells : framesAt s.freeze = framesAt s := framesAt_of_cells rfl
  exact congrFun hcells s.top

theorem frames_push (h : s.Linked) (a : Activation) :
    frames (s.push a) = a.bare :: frames s := by
  show (s.push a).toList.map _ = _
  rw [toList_push h, List.map_cons]
  rfl

theorem framesAt_push (h : s.Linked) (a : Activation) {place : Option Nat}
    (hplace : level place ≤ s.nextCell) : framesAt (s.push a) place = framesAt s place := by
  rw [framesAt, framesAt, listAt, listAt, chainAt_push h a hplace]

/-- Searching the activations by what shows of them. -/
theorem find?_frames (h : s.Linked) (accept : Activation → Bool)
    (hbare : ∀ a : Activation, accept a.bare = accept a) :
    (s.find? accept).map (·.bare) = (frames s).find? accept := by
  have haccept : (accept ∘ fun a : Activation => a.bare) = accept := funext hbare
  rw [find?_eq h, frames, framesAt, List.find?_map, haccept]
  rfl

end frames

/-! ## Alternatives -/

/-- What shows of a branch. -/
structure Alternative where
  pc : Nat
  stack : List Operand
  paths : List PlainRecord
  frames : List Activation

/-- What shows of a branch among these activations. -/
def PlainBranch.alternative (scopes : RewindStack Activation) (b : PlainBranch) : Alternative :=
  ⟨b.pc, b.stack.map (·.bare), b.paths, framesAt scopes b.scopes.top⟩

theorem alternative_of_cells {s t : RewindStack Activation} (h : t.cells = s.cells) :
    PlainBranch.alternative t = PlainBranch.alternative s := by
  funext b
  rw [PlainBranch.alternative, PlainBranch.alternative, framesAt_of_cells h]

namespace PlainMachine

/-- The branches that are not those of handlers. -/
def alternatives (p : Program) (m : PlainMachine) : List Alternative :=
  (m.branches.filter fun b => !p.handlesAt b.pc).map (PlainBranch.alternative m.scopes)

/-! ## Activations and registers -/

section

variable {p : Program} {m : PlainMachine}

/-- Entering a scope writes above everything that a branch looks at. -/
theorem alternative_push (hrooted : m.Rooted) (a : Activation) {b : PlainBranch}
    (hb : b ∈ m.branches) : b.alternative (m.scopes.push a) = b.alternative m.scopes := by
  rw [PlainBranch.alternative, PlainBranch.alternative,
    framesAt_push hrooted.scopes.toLinked a (hrooted.level_le hb)]

/-- Where an activation lies on that of its caller, a return pops it. -/
theorem Orderly.pop_cases (h : m.Orderly p) (hrooted : m.Rooted) :
    (m.scopes.pop? = none ∧ frames m.scopes = []) ∨
      ∃ activation below, m.scopes.pop? = some (activation, below) ∧
        below.setTop activation.saved = below ∧ below.cells = m.scopes.cells ∧
        frames m.scopes = activation.bare :: frames below ∧
        below.isEmpty = (frames below).isEmpty := by
  have hlinked := hrooted.scopes.toLinked
  rcases pop?_cases hlinked with ⟨hnone, -, hchain⟩ | ⟨place, activation, below, hsome, -, hchain⟩
  · left
    refine ⟨hnone, ?_⟩
    show m.scopes.toList.map _ = []
    rw [toList, hchain]
    rfl
  · right
    obtain ⟨cell, hcell, rfl, rfl⟩ := pop?_eq_some hsome
    obtain ⟨top, -, hget⟩ := cell?_eq_some hcell
    refine ⟨_, _, hsome, ?_, rfl, ?_, ?_⟩
    · rw [h.saved top cell hget]
      rfl
    · show m.scopes.toList.map _ = _
      rw [toList, hchain]
      rfl
    · rw [isEmpty_eq (hlinked.of_pop? hsome)]
      exact List.isEmpty_map.symm

theorem lt_size_of_register {v : Address} {r : Nat} (hr : m.register v = .ok r) :
    r < m.registers.size := by
  unfold PlainMachine.register at hr
  split at hr
  · cases hr
  · dsimp only at hr
    split at hr
    · cases hr
      assumption
    · cases hr

end

/-! ## Machines that look alike -/

/-- What the machines turn to when their continuations end looks alike, and no fault is looking for
a handler. -/
structure AlikeBehind (p : Program) (a b : PlainMachine) : Prop where
  size : b.registers.size = a.registers.size
  registers : ∀ r, (b.registers.getD r default).bare = (a.registers.getD r default).bare
  offset : b.offset = a.offset
  branches : b.branches.map (PlainBranch.alternative b.scopes) = a.alternatives p
  sound : a.fault = none
  sound' : b.fault = none
  running : a.finished = false
  running' : b.finished = false

/-- The machines look alike but for the branches of handlers, of which `b` has none. -/
structure Alike (p : Program) (a b : PlainMachine) : Prop extends AlikeBehind p a b where
  pc : b.pc = a.pc
  stack : b.stack.map (·.bare) = a.stack.map (·.bare)
  paths : b.paths = a.paths
  frames : frames b.scopes = frames a.scopes
  resuming : b.resuming = a.resuming
  call : b.pendingCall.map (·.returnPc) = a.pendingCall.map (·.returnPc)

/-- The effects look alike, or the first one is a failure. -/
inductive EffectAlike (p : Program) : PlainEffect → PlainEffect → Prop where
  | next {a b : PlainMachine} (h : Alike p a b) : EffectAlike p (.next a) (.next b)
  | jump {a b : PlainMachine} (h : Alike p a b) (target : Nat) :
      EffectAlike p (.jump a target) (.jump b target)
  | stop {a b : PlainMachine} (h : Alike p a b) : EffectAlike p (.stop a) (.stop b)
  | yield {a b : PlainMachine} (h : Alike p a b) (v : Value) :
      EffectAlike p (.yield a v) (.yield b v)
  | fail {a : PlainMachine} {fault : Fault} {effect : PlainEffect} :
      EffectAlike p (.fail a fault) effect

namespace Alike

variable {p : Program} {a a' b : PlainMachine} {x y : Operand} {v : Value}

/-! ## Pushing and popping -/

theorem pushOperand (h : Alike p a b) (hxy : y.bare = x.bare) :
    Alike p (a.pushOperand x) (b.pushOperand y) :=
  { h with
    stack := by
      show (y :: b.stack).map _ = (x :: a.stack).map _
      rw [List.map_cons, List.map_cons, hxy, h.stack] }

theorem pushValue (h : Alike p a b) (v : Value) : Alike p (a.pushValue v) (b.pushValue v) :=
  h.pushOperand rfl

theorem popOperand (h : Alike p a b) (hp : a.popOperand = .ok (x, a')) :
    ∃ y b', b.popOperand = .ok (y, b') ∧ y.bare = x.bare ∧ Alike p a' b' := by
  obtain ⟨below, ha, rfl⟩ := popOperand_eq_ok hp
  have hstack := h.stack
  rw [ha, List.map_cons] at hstack
  obtain ⟨y, below', hb, hxy, hbelow⟩ := List.map_eq_cons_iff.mp hstack
  unfold PlainMachine.popOperand
  rw [hb]
  exact ⟨y, _, rfl, hxy, { h with stack := hbelow }⟩

theorem popValue (h : Alike p a b) (hp : a.popValue = .ok (v, a')) :
    ∃ b', b.popValue = .ok (v, b') ∧ Alike p a' b' := by
  obtain ⟨y, b', hy, hbare, halike⟩ := h.popOperand (popValue_eq_ok hp)
  obtain rfl := Operand.eq_of_bare_value hbare
  unfold PlainMachine.popValue
  rw [hy]
  exact ⟨b', rfl, halike⟩

theorem popValues (h : Alike p a b) {count : Nat} {values : List Value}
    (hp : a.popValues count = .ok (values, a')) :
    ∃ b', b.popValues count = .ok (values, b') ∧ Alike p a' b' := by
  induction count generalizing a b values with
  | zero =>
    obtain ⟨rfl, rfl⟩ := Prod.mk.inj (Except.ok.inj hp)
    exact ⟨b, rfl, h⟩
  | succ count ih =>
    rw [PlainMachine.popValues] at hp ⊢
    split at hp
    · cases hp
    · rename_i hv
      obtain ⟨b₁, hb₁, h₁⟩ := h.popValue hv
      split at hp
      · cases hp
      · rename_i hrest
        obtain ⟨rfl, rfl⟩ := Prod.mk.inj (Except.ok.inj hp)
        obtain ⟨b', hb', halike⟩ := ih h₁ hrest
        rw [hb₁]
        dsimp only
        rw [hb']
        exact ⟨b', rfl, halike⟩

theorem popPairs (h : Alike p a b) {count : Nat} {following pairs : List (String × Value)}
    (hp : a.popPairs following count = .ok (pairs, a')) :
    ∃ b', b.popPairs following count = .ok (pairs, b') ∧ Alike p a' b' := by
  induction count generalizing a b following with
  | zero =>
    obtain ⟨rfl, rfl⟩ := Prod.mk.inj (Except.ok.inj hp)
    exact ⟨b, rfl, h⟩
  | succ count ih =>
    rw [PlainMachine.popPairs] at hp ⊢
    split at hp
    · cases hp
    · rename_i hv
      obtain ⟨b₁, hb₁, h₁⟩ := h.popValue hv
      split at hp
      · cases hp
      · rename_i hkey
        obtain ⟨b₂, hb₂, h₂⟩ := h₁.popValue hkey
        rw [hb₁]
        dsimp only
        rw [hb₂]
        exact ih h₂ hp
      · cases hp

theorem head? (h : Alike p a b) (hx : a.stack.head? = some x) :
    ∃ y, b.stack.head? = some y ∧ y.bare = x.bare := by
  have hhead := congrArg List.head? h.stack
  rw [List.head?_map, List.head?_map, hx] at hhead
  exact Option.map_eq_some_iff.mp hhead

end Alike

/-! ## Taking up branches -/

namespace AlikeBehind

variable {p : Program} {a b : PlainMachine} {branch : PlainBranch} {older : List PlainBranch}

theorem alternatives_rewind (m : PlainMachine) (branch : PlainBranch) (older : List PlainBranch) :
    alternatives p ({ m with branches := older }.rewind branch) =
      (older.filter fun b => !p.handlesAt b.pc).map (PlainBranch.alternative m.scopes) := by
  have hrestore : PlainBranch.alternative (m.scopes.restore branch.scopes) =
      PlainBranch.alternative m.scopes := alternative_of_cells rfl
  rw [alternatives, PlainMachine.rewind, hrestore]

/-- Without branches on one side there are none on the other. -/
theorem branches_nil (h : AlikeBehind p a b) (hnil : a.branches = []) : b.branches = [] := by
  have hmatch := h.branches
  rw [alternatives, hnil] at hmatch
  exact List.map_eq_nil_iff.mp hmatch

/-- The branch of a handler is taken up on its own. -/
theorem rewindHandler (h : AlikeBehind p a b) (hbranches : a.branches = branch :: older)
    (hhandler : p.handlesAt branch.pc = true) :
    AlikeBehind p ({ a with branches := older }.rewind branch) b :=
  { h with
    branches := by
      rw [alternatives_rewind, h.branches, alternatives, hbranches,
        List.filter_cons_of_neg (by simp [hhandler])] }

/-- Any other branch is taken up on both sides. -/
theorem rewind (h : AlikeBehind p a b) (hbranches : a.branches = branch :: older)
    (hkept : p.handlesAt branch.pc = false) :
    ∃ branch' older', b.branches = branch' :: older' ∧
      Alike p ({ a with branches := older }.rewind branch)
        ({ b with branches := older' }.rewind branch') := by
  have hmatch := h.branches
  rw [alternatives, hbranches, List.filter_cons_of_pos (by simp [hkept]), List.map_cons] at hmatch
  obtain ⟨branch', older', hb, hbranch, holder⟩ := List.map_eq_cons_iff.mp hmatch
  rw [PlainBranch.alternative, PlainBranch.alternative, Alternative.mk.injEq] at hbranch
  obtain ⟨hpc, hstack, hpaths, hframes⟩ := hbranch
  have hrestore : ∀ (s : RewindStack Activation) (saved : Savepoint),
      framesAt (s.restore saved) = framesAt s := fun _ _ => framesAt_of_cells rfl
  refine ⟨branch', older', hb, { h with
    branches := ?_, pc := hpc, stack := hstack, paths := hpaths, frames := ?_, resuming := rfl,
    call := rfl }⟩
  · have hrestore' : PlainBranch.alternative (b.scopes.restore branch'.scopes) =
        PlainBranch.alternative b.scopes := alternative_of_cells rfl
    rw [alternatives_rewind, ← holder, PlainMachine.rewind, hrestore']
  · show framesAt (b.scopes.restore _) branch'.scopes.top =
      framesAt (a.scopes.restore _) branch.scopes.top
    rw [hrestore, hrestore, hframes]

end AlikeBehind

end PlainMachine
end QueryMachine
