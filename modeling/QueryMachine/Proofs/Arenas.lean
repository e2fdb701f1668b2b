import QueryMachine.Proofs.PathStarts

/-!
# No cursor leaves its buffer

The cursors of a machine are bare indices, and they lie in many places: in branch points,
activations, path records, closures and registers, some of them long given up. Still every one of
them is empty or points into the buffer that it is a cursor of, in every machine of every run of
every program.

* `Contained`, `Arenas`: what this means for a stack and for a machine;
* `Worked`, `Navigable`: and what it is good for. On such a stack, and on whatever an instruction
  makes of it, a push takes the one cell above the top and all that is frozen, and a walk finds a
  cell behind every link and comes to an end;
* `arenas_course`: it is an invariant of every run.
-/

namespace QueryMachine

open RewindStack

/-- A cursor is empty or points below a bound. -/
def Within (place : Option Nat) (bound : Nat) : Prop :=
  ∀ i, place = some i → i < bound

theorem within_iff {place : Option Nat} {bound : Nat} :
    Within place bound ↔ level place ≤ bound := by
  constructor
  · intro h
    cases place with
    | none => exact Nat.zero_le bound
    | some i => exact h i rfl
  · rintro h i rfl
    exact h

namespace RewindStack

variable {α : Type} {s : RewindStack α}

/-! ## Walks -/

/-- Following the links from a place, one comes through these cells, and then to an end. -/
inductive Walk (s : RewindStack α) : Option Nat → List (Nat × α) → Prop where
  | stop : Walk s none []
  | step {i : Nat} {cell : Cell α} {rest : List (Nat × α)} (hcell : s.cells[i]? = some cell)
      (h : Walk s cell.below rest) : Walk s (some i) ((i, cell.value) :: rest)

/-- In a well-linked stack the walk from a place in the buffer is the chain from there. -/
theorem Linked.walk (h : s.Linked) {place : Option Nat} (hwithin : Within place s.cells.size) :
    Walk s place (s.chainAt place) := by
  -- every link leads downwards, so the induction is on how far it can still go
  induction hlevel : level place using Nat.strongRecOn generalizing place with
  | ind n ih =>
    cases place with
    | none => exact .stop
    | some i =>
      obtain ⟨cell, hcell⟩ := Linked.exists_cell (within_iff.mp hwithin)
      have hle := h.below_le i cell hcell
      rw [level_some] at hlevel
      have hbelow : Within cell.below s.cells.size := by
        have hi := within_iff.mp hwithin
        rw [level_some] at hi
        exact within_iff.mpr (by omega)
      rw [h.chainAt_some hcell]
      exact .step hcell (ih (level cell.below) (by omega) hbelow rfl)

/-! ## Stacks that can be worked on -/

/-- The stacks that an instruction comes to, starting from a stack. -/
inductive Worked (s : RewindStack α) : RewindStack α → Prop where
  | start : Worked s s
  | push {t : RewindStack α} (v : α) (h : Worked s t) : Worked s (t.push v)
  | pop {t u : RewindStack α} {x : α} (h : Worked s t) (hpop : t.pop? = some (x, u)) : Worked s u
  | freeze {t : RewindStack α} (h : Worked s t) : Worked s t.freeze
  | setTop {t : RewindStack α} {place : Option Nat} (h : Worked s t)
      (hwithin : Within place t.cells.size) : Worked s (t.setTop place)

theorem Linked.worked {t : RewindStack α} (h : s.Linked) (hwork : Worked s t) : t.Linked := by
  induction hwork with
  | start => exact h
  | push v hwork ih => exact ih.push v
  | pop hwork hpop ih => exact ih.of_pop? hpop
  | freeze hwork ih => exact (Keeps.nil ih).freeze.toLinked
  | setTop hwork hwithin ih => exact ih.setTop (within_iff.mp hwithin)

/-- A stack can be pushed on and walked through without leaving its buffer. -/
structure Navigable (s : RewindStack α) : Prop where
  /-- A push writes the cell above the top and all that is frozen, and leaves no gap. -/
  push_le : max (level s.top) (level s.frozen) ≤ s.cells.size
  push_cell : ∀ (v : α) (i : Nat), (s.push v).cells[i]? =
    if i = max (level s.top) (level s.frozen) then some ⟨v, s.top⟩ else s.cells[i]?
  /-- A walk from any place in the buffer stays in it, and ends. -/
  walk : ∀ place, Within place s.cells.size → Walk s place (s.chainAt place)
  /-- All walks that instructions make are made on the chain from the top. -/
  iter : s.toList = (s.chainAt s.top).map (·.2)
  depth : s.depth = (s.chainAt s.top).length
  find : ∀ accept, s.find? accept = ((s.chainAt s.top).map (·.2)).find? accept
  since : ∀ base, s.since base =
    (((s.chainAt s.top).takeWhile (·.1 != base)).map (·.2)).reverse

theorem Linked.navigable (h : s.Linked) : Navigable s where
  push_le := by
    rw [← nextCell_eq]
    exact h.nextCell_le
  push_cell := by
    intro v i
    rw [getElem?_push h.nextCell_le, nextCell_eq]
  walk := fun place hwithin => h.walk hwithin
  iter := rfl
  depth := rfl
  find := find?_eq h
  since := since_eq_takeWhile h

/-- The cursors of a stack, and those of its savepoints, fit into its buffer, and every link leads
downwards. -/
structure Contained (s : RewindStack α) (saves : List Savepoint) : Prop where
  top : Within s.top s.cells.size
  frozen : Within s.frozen s.cells.size
  saves : ∀ save ∈ saves, Within save.top s.cells.size ∧ Within save.frozen s.cells.size
  below : ∀ i cell, s.cells[i]? = some cell → Within cell.below i

theorem Keeps.contained {saves : List Savepoint} (h : s.Keeps saves) : Contained s saves where
  top := within_iff.mpr h.top_le
  frozen := within_iff.mpr h.frozen_le
  saves := by
    intro save hsave
    have hreach := h.guards.reach_le hsave
    have hfrozen := h.frozen_le
    rw [reach] at hreach
    exact ⟨within_iff.mpr (by omega), within_iff.mpr (by omega)⟩
  below := fun i cell hcell => within_iff.mpr (h.below_le i cell hcell)

end RewindStack

namespace Machine

variable {m m' : Machine} {p : Program}

/-! ## The starts of paths -/

/-- The innermost start lies in the chain that it is the innermost start of. -/
theorem within_of_bracketed {s : RewindStack PathRecord} {place depth : Option Nat} (h : s.Linked)
    (hbrackets : Bracketed (s.chainAt place) depth) : Within depth (level place) := by
  rintro i rfl
  obtain ⟨above, v, outer, rest, hchain, -, -⟩ := hbrackets.split
  apply lt_level_of_mem_chainAt h
  rw [hchain]
  exact List.mem_append_right above List.mem_cons_self

/-- Every path that was ever opened remembers a start below its own, or none. -/
def OuterBelow (m : Machine) : Prop :=
  ∀ i v outer below, m.paths.cells[i]? = some ⟨.start v outer, below⟩ → Within outer i

theorem outerBelow_dispatch (h : m.Coherent) (houter : OuterBelow m) :
    OuterBelow (dispatch p m).machine := by
  have hnext := h.paths.nextCell_le
  intro i v outer below hcell
  rcases writes_dispatch p m with hsame | ⟨component, w, hstep⟩ | ⟨w, -, -, -, hstart⟩
  · rw [hsame] at hcell
    exact houter i v outer below hcell
  · rw [hstep, getElem?_push hnext] at hcell
    split at hcell
    · cases hcell
    · exact houter i v outer below hcell
  · rw [hstart, getElem?_push hnext] at hcell
    split at hcell
    · rename_i hi
      rw [Option.some.injEq, Cell.mk.injEq, PathRecord.start.injEq] at hcell
      rw [← hcell.1.2, hi, nextCell_eq]
      -- the path that was open is part of the chain, and the new start lies above that
      have hdepth := within_iff.mp (within_of_bracketed h.paths.toLinked h.brackets)
      exact within_iff.mpr (by omega)
    · exact houter i v outer below hcell

theorem outerBelow_course (hstart : m.Coherent) (houter : OuterBelow m) (p : Program)
    (signals : Nat → Signals) (n : Nat) : OuterBelow (course p m signals n) := by
  induction n with
  | zero => exact houter
  | succ n ih =>
    exact outerBelow_dispatch ((coherent_course hstart p signals n).withSignals (signals n)) ih

/-! ## All cursors of a machine -/

/-- Every cursor of a machine, wherever it is stored and whether or not it is still in use, fits
into the buffer that it refers to. -/
structure Arenas (m : Machine) : Prop where
  stack : m.stack.Contained (m.branches.map (·.stack))
  paths : m.paths.Contained (m.branches.map (·.paths))
  scopes : m.scopes.Contained (m.branches.map (·.scopes))
  saved : ∀ i cell, m.scopes.cells[i]? = some cell → Within cell.value.saved i
  outer : m.OuterBelow
  pathDepth : Within m.pathDepth m.paths.cells.size
  branchDepth : ∀ b ∈ m.branches, Within b.pathDepth m.paths.cells.size
  operands : ∀ (i : Nat) pc scope below, m.stack.cells[i]? = some ⟨.closure pc scope, below⟩ →
    Within scope m.scopes.cells.size
  registers : ∀ (i : Nat) pc scope, m.registers[i]? = some (.closure pc scope) →
    Within scope m.scopes.cells.size
  call : ∀ call, m.pendingCall = some call → Within call.caller m.scopes.cells.size

theorem Coherent.arenas (h : m.Coherent) (houter : m.OuterBelow) : Arenas m where
  stack := h.stack.contained
  paths := h.paths.contained
  scopes := h.scopes.contained
  saved := fun i cell hcell => within_iff.mpr (h.saved i cell hcell)
  outer := houter
  pathDepth := by
    have hdepth := within_iff.mp (within_of_bracketed h.paths.toLinked h.brackets)
    exact within_iff.mpr (Nat.le_trans hdepth h.paths.top_le)
  branchDepth := by
    intro b hb
    have hdepth := within_iff.mp (within_of_bracketed h.paths.toLinked (h.branchBrackets b hb))
    have hplace := (h.paths.contained.saves b.paths (List.mem_map_of_mem hb)).1
    exact within_iff.mpr (Nat.le_trans hdepth (within_iff.mp hplace))
  operands := fun i pc scope below hcell => within_iff.mpr (h.operands i _ hcell)
  registers := fun i pc scope hregister => within_iff.mpr (h.registers i _ hregister)
  call := fun call hcall => within_iff.mpr (h.call call hcall)

/-- In every machine of every run the cursors fit into their buffers, so that the stacks can be
worked on without leaving them. -/
theorem arenas_course (p : Program) (idle : Machine) (settings : Settings) (input : Value)
    (interrupt : Option Interrupt) (signals : Nat → Signals) (n : Nat) :
    Arenas (course p (idle.load settings input interrupt) signals n) ∧
    (∀ t, Worked (course p (idle.load settings input interrupt) signals n).stack t →
      Navigable t) ∧
    (∀ t, Worked (course p (idle.load settings input interrupt) signals n).paths t →
      Navigable t) ∧
    ∀ t, Worked (course p (idle.load settings input interrupt) signals n).scopes t →
      Navigable t := by
  have hstart := coherent_load idle settings input interrupt
  have houter : OuterBelow (idle.load settings input interrupt) := by
    intro i v outer below hcell
    simp [load, reset, RewindStack.empty] at hcell
  have h := coherent_course hstart p signals n
  exact ⟨h.arenas (outerBelow_course hstart houter p signals n),
    fun t ht => (h.stack.toLinked.worked ht).navigable,
    fun t ht => (h.paths.toLinked.worked ht).navigable,
    fun t ht => (h.scopes.toLinked.worked ht).navigable⟩

end Machine
end QueryMachine
