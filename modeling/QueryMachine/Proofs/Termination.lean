import Mathlib.Data.Multiset.DershowitzManna
import Mathlib.Data.Prod.Lex
import Mathlib.Tactic.Abel
import QueryMachine.Proofs.ControlFlow
import QueryMachine.Proofs.Yields

/-!
# Loop-free programs terminate

A program whose jumps, branches and calls only lead to higher positions ends its run, although
returns lead back, every branch does the rest of the program once more, and nobody knows in advance
how many entries an iteration has to visit.

* `Program.rank`: how far a position is from the end of the program, and how many turns its
  instruction has left. A place to return to ranks between the call and the position after it;
* `potential`: the ranks of a continuation, that of its position and those of all places that it
  returns to. No instruction but a return goes to a higher position, and a return takes its place
  away, so that what goes on has a lower potential in the order of Dershowitz and Manna;
* `Shrinks`: a branch has a lower potential than the continuation that leaves it behind, and waits
  with it until it is taken up. There are no infinite descents of this kind
  (`wellFounded_shrinks`);
* `shrinks_dispatch`: every dispatch is a step down, until the run is over.
-/

namespace QueryMachine

open RewindStack

/-! ## Loop-free programs -/

/-- Every target of a branch, a jump or a call lies above its instruction, and no closure is
called. -/
def Program.LoopFree (p : Program) : Prop :=
  ∀ pc < p.length, ∀ i ∈ p.at? pc, i.leadsOn pc = true

instance (p : Program) : Decidable p.LoopFree :=
  inferInstanceAs (Decidable (∀ pc < p.length, ∀ i ∈ p.at? pc, i.leadsOn pc = true))

namespace Program

variable {p : Program} {pc pc' returnPc turns turns' : Nat} {i : Instruction}

theorem lt_length (hat : p.at? pc = some i) : pc < p.length :=
  (Array.getElem?_eq_some_iff.mp hat).1

theorem LoopFree.leadsOn (h : p.LoopFree) (hat : p.at? pc = some i) : i.leadsOn pc = true :=
  h pc (lt_length hat) i hat

/-! ## Ranks -/

/-- The rank of a position. Positions count twice, which leaves room for the places to return to. -/
def rank (p : Program) (pc turns : Nat) : ℕ ×ₗ ℕ :=
  toLex (2 * (p.length - pc), turns)

/-- The rank of a place to return to: the run goes on after it. -/
def returnRank (p : Program) (returnPc : Nat) : ℕ ×ₗ ℕ :=
  toLex (2 * (p.length - (returnPc + 1)) + 1, 0)

theorem rank_lt_rank (hat : p.at? pc = some i) (hlt : pc < pc') :
    p.rank pc' turns' < p.rank pc turns := by
  have hlength := lt_length hat
  refine Prod.Lex.toLex_lt_toLex.mpr (.inl ?_)
  show 2 * (p.length - pc') < 2 * (p.length - pc)
  omega

theorem rank_lt_of_turns (hlt : turns' < turns) : p.rank pc turns' < p.rank pc turns :=
  Prod.Lex.toLex_lt_toLex.mpr (.inr ⟨rfl, hlt⟩)

theorem rank_lt_returnRank (p : Program) (returnPc turns : Nat) :
    p.rank (returnPc + 1) turns < p.returnRank returnPc := by
  refine Prod.Lex.toLex_lt_toLex.mpr (.inl ?_)
  show 2 * (p.length - (returnPc + 1)) < 2 * (p.length - (returnPc + 1)) + 1
  omega

theorem returnRank_lt_rank (hat : p.at? pc = some i) (hle : pc ≤ returnPc) :
    p.returnRank returnPc < p.rank pc turns := by
  have hlength := lt_length hat
  refine Prod.Lex.toLex_lt_toLex.mpr (.inl ?_)
  show 2 * (p.length - (returnPc + 1)) + 1 < 2 * (p.length - pc)
  omega

end Program

/-! ## Places to return to -/

/-- The activations, linked to those of their callers. -/
def byCaller (s : RewindStack Activation) : RewindStack Activation :=
  { s with cells := s.cells.map fun cell => ⟨cell.value, cell.value.saved⟩ }

/-- Where the run returns to from an activation, from that of its caller, and so on. -/
def returnsFrom (s : RewindStack Activation) (place : Option Nat) : List Nat :=
  ((byCaller s).listAt place).map (·.returnPc)

section returnsFrom

variable {s t : RewindStack Activation} {place : Option Nat} {i : Nat} {cell : Cell Activation}

theorem getElem?_byCaller (s : RewindStack Activation) (i : Nat) :
    (byCaller s).cells[i]? = s.cells[i]?.map fun cell => ⟨cell.value, cell.value.saved⟩ :=
  Array.getElem?_map

theorem byCaller_linked (h : s.Linked)
    (hsaved : s.Holds fun i activation => level activation.saved ≤ i) : (byCaller s).Linked := by
  have hsize : (byCaller s).cells.size = s.cells.size := Array.size_map
  refine ⟨hsize ▸ h.top_le, hsize ▸ h.frozen_le, ?_⟩
  intro i cell hcell
  rw [getElem?_byCaller] at hcell
  obtain ⟨old, hold, rfl⟩ := Option.map_eq_some_iff.mp hcell
  exact hsaved i old hold

/-- From an activation the run returns to its own place first, and then where its caller does. -/
theorem returnsFrom_some (h : s.Linked)
    (hsaved : s.Holds fun i activation => level activation.saved ≤ i)
    (hcell : s.cells[i]? = some cell) :
    returnsFrom s (some i) = cell.value.returnPc :: returnsFrom s cell.value.saved := by
  have hcaller : (byCaller s).cells[i]? = some ⟨cell.value, cell.value.saved⟩ := by
    rw [getElem?_byCaller, hcell]
    rfl
  rw [returnsFrom, listAt, (byCaller_linked h hsaved).chainAt_some hcaller]
  rfl

theorem returnsFrom_congr (h : ∀ i < level place, t.cells[i]? = s.cells[i]?) :
    returnsFrom t place = returnsFrom s place := by
  rw [returnsFrom, returnsFrom, listAt_congr fun i hi => ?_]
  rw [getElem?_byCaller, getElem?_byCaller, h i hi]

theorem returnsFrom_of_cells (h : t.cells = s.cells) : returnsFrom t = returnsFrom s := by
  funext place
  exact returnsFrom_congr fun i _ => by rw [h]

end returnsFrom

/-! ## Descents -/

/-- The ranks of a continuation. -/
abbrev Potential := Multiset (ℕ ×ₗ ℕ)

/-- One potential is below another. -/
abbrev Potential.Below : Potential → Potential → Prop :=
  Multiset.IsDershowitzMannaLT

namespace Potential

variable {r r' place : ℕ ×ₗ ℕ}

/-- A lower rank takes the place of a higher one, and others may be given up. -/
theorem below_of_lt (h : r' < r) (dropped others : Potential) :
    Below (r' ::ₘ others) (r ::ₘ (dropped + others)) := by
  refine ⟨others, {r'}, {r} + dropped, by simp, ?_, ?_, ?_⟩
  · rw [← Multiset.singleton_add, add_comm]
  · rw [← Multiset.singleton_add]
    abel
  · intro y hy
    rw [Multiset.mem_singleton.mp hy]
    exact ⟨r, by simp, h⟩

/-- A call adds a place to return to, and may give up another. -/
theorem below_of_call (h : r' < r) (hplace : place < r) (dropped others : Potential) :
    Below (r' ::ₘ place ::ₘ others) (r ::ₘ (dropped + others)) := by
  refine ⟨others, {r'} + {place}, {r} + dropped, by simp, ?_, ?_, ?_⟩
  · rw [← Multiset.singleton_add, ← Multiset.singleton_add]
    abel
  · rw [← Multiset.singleton_add]
    abel
  · intro y hy
    refine ⟨r, by simp, ?_⟩
    rcases Multiset.mem_add.mp hy with hy | hy
    · rwa [Multiset.mem_singleton.mp hy]
    · rwa [Multiset.mem_singleton.mp hy]

/-- A return takes a place away. -/
theorem below_of_return (h : r' < r ∨ r' < place) (pending others : Potential) :
    Below (r' ::ₘ (pending + others)) (r ::ₘ (pending + place ::ₘ others)) := by
  refine ⟨pending + others, {r'}, {r} + {place}, by simp, ?_, ?_, ?_⟩
  · rw [← Multiset.singleton_add]
    abel
  · rw [← Multiset.singleton_add, ← Multiset.singleton_add]
    abel
  · intro y hy
    rw [Multiset.mem_singleton.mp hy]
    rcases h with h | h
    · exact ⟨r, by simp, h⟩
    · exact ⟨place, by simp, h⟩

end Potential

/-- A step down: the continuation goes on with a lower potential, or leaves a branch with a lower
potential behind as well, or ends and leaves the rest to the most recent branch. -/
inductive Shrinks : Potential × List Potential → Potential × List Potential → Prop where
  | goOn {c c' : Potential} {waiting : List Potential} (h : c'.Below c) :
      Shrinks (c', waiting) (c, waiting)
  | suspend {b c c' : Potential} {waiting : List Potential} (h : c'.Below c) (hb : b.Below c) :
      Shrinks (c', b :: waiting) (c, waiting)
  | takeUp {b c : Potential} {waiting : List Potential} : Shrinks (b, waiting) (c, b :: waiting)

/-- A continuation comes to an end, provided that the branches do which wait before it. -/
theorem acc_shrinks (c : Potential) : ∀ waiting : List Potential,
    (∀ b rest, waiting = b :: rest → Acc Shrinks (b, rest)) → Acc Shrinks (c, waiting) := by
  -- the branch that is left behind is below the continuation, so the induction covers it, too
  have hwf : WellFounded Potential.Below := Multiset.wellFounded_isDershowitzMannaLT
  induction c using hwf.induction with
  | _ c ih =>
    intro waiting hwaiting
    refine ⟨_, ?_⟩
    rintro _ (h | ⟨h, hb⟩ | _)
    · exact ih _ h waiting hwaiting
    · refine ih _ h _ ?_
      intro b rest heq
      obtain ⟨rfl, rfl⟩ := List.cons.inj heq
      exact ih _ hb _ hwaiting
    · exact hwaiting _ _ rfl

theorem wellFounded_shrinks : WellFounded Shrinks := by
  refine ⟨fun (c, waiting) => acc_shrinks c waiting ?_⟩
  induction waiting with
  | nil =>
    intro b rest heq
    cases heq
  | cons b waiting ih =>
    intro b' rest heq
    obtain ⟨rfl, rfl⟩ := List.cons.inj heq
    exact acc_shrinks b waiting ih

/-! ## The potential of a machine -/

/-- The potential of a continuation at a position, with the places that it returns to. -/
def potential (p : Program) (pc : Nat) (resuming : Bool) (stack : List Operand)
    (returns : Potential) : Potential :=
  p.rank pc ((p.at? pc).elim 0 (·.turnsLeft resuming stack)) ::ₘ returns

/-- The places to return to from an activation, by rank. -/
def returnRanks (p : Program) (s : RewindStack Activation) (place : Option Nat) : Potential :=
  ((returnsFrom s place).map p.returnRank : List (ℕ ×ₗ ℕ))

namespace PlainMachine

variable {p : Program} {m m' : PlainMachine} {i : Instruction} {effect : PlainEffect}

/-- The place to return to from a call that is under way, by rank. -/
def callRank (p : Program) (m : PlainMachine) : Potential :=
  (m.pendingCall.toList.map fun call => p.returnRank call.returnPc : List (ℕ ×ₗ ℕ))

/-- The potentials of the continuation and of the branches. -/
def measure (p : Program) (m : PlainMachine) : Potential × List Potential :=
  (potential p m.pc m.resuming m.stack (m.callRank p + returnRanks p m.scopes m.scopes.top),
    m.branches.map fun b =>
      potential p b.pc true b.stack (returnRanks p m.scopes b.scopes.top))

/-! ## Every dispatch is a step down -/

theorem potential_at {pc : Nat} (hat : p.at? pc = some i) (resuming : Bool) (stack : List Operand)
    (returns : Potential) :
    potential p pc resuming stack returns = p.rank pc (i.turnsLeft resuming stack) ::ₘ returns := by
  rw [potential, hat]
  rfl

/-- A higher position has a lower potential. -/
theorem potential_below {pc pc' : Nat} (hat : p.at? pc = some i) (hlt : pc < pc')
    (resuming resuming' : Bool) (stack stack' : List Operand) (returns : Potential) :
    (potential p pc' resuming' stack' returns).Below (potential p pc resuming stack returns) := by
  have hrank : p.rank pc' ((p.at? pc').elim 0 (·.turnsLeft resuming' stack')) <
      p.rank pc ((p.at? pc).elim 0 (·.turnsLeft resuming stack)) := Program.rank_lt_rank hat hlt
  have hbelow := Potential.below_of_lt hrank 0 returns
  rw [zero_add] at hbelow
  exact hbelow

theorem callRank_none (h : m.pendingCall = none) : m.callRank p = 0 := by
  rw [callRank, h]
  rfl

theorem callRank_congr (h : m'.pendingCall = m.pendingCall) : m'.callRank p = m.callRank p := by
  rw [callRank, callRank, h]

theorem returnRanks_of_cells {s t : RewindStack Activation} (h : t.cells = s.cells) :
    returnRanks p t = returnRanks p s := by
  funext place
  rw [returnRanks, returnRanks, returnsFrom_of_cells h]

/-- Going on at a higher position. -/
theorem shrinks_goOn (hat : p.at? m.pc = some i) (h : Undiverted m m') {pc : Nat}
    (hlt : m.pc < pc) : Shrinks (measure p { m' with pc }) (m.measure p) := by
  have hcall : callRank p { m' with pc } = m.callRank p := callRank_congr h.pendingCall
  rw [measure, measure, hcall]
  dsimp only
  rw [h.scopes, h.branches]
  exact .goOn (potential_below hat hlt _ _ _ _ _)

/-- Leaving a branch behind and going on at the next position. -/
theorem shrinks_suspend (hat : p.at? m.pc = some i) {b : PlainBranch} (h : Suspends m i b m') :
    Shrinks (measure p { m' with pc := m'.pc + 1 }) (m.measure p) := by
  have hcall : callRank p { m' with pc := m'.pc + 1 } = m.callRank p :=
    callRank_congr h.pendingCall
  have hfreeze : returnRanks p m.scopes.freeze = returnRanks p m.scopes :=
    returnRanks_of_cells rfl
  have htop : m.scopes.freeze.top = m.scopes.top := rfl
  rw [measure, measure, hcall]
  dsimp only
  rw [h.pc, h.scopes, h.branches, hfreeze, htop, List.map_cons, h.branchPc, h.savedScopes]
  refine .suspend (potential_below hat (Nat.lt_succ_self m.pc) _ _ _ _ _) ?_
  -- the branch returns where the continuation does, but no call is under way
  rw [potential_at hat, potential_at hat]
  exact Potential.below_of_lt (Program.rank_lt_of_turns h.fewer) _ _

/-- Where a continuation ends, the most recent branch is taken up, or the run is over. -/
theorem shrinks_unwind (h : Ends m m') :
    (unwind m').machine.finished = true ∨
      Shrinks ((unwind m').machine.measure p) (m.measure p) := by
  have hbranches := h.branches
  cases hb : m'.branches with
  | nil =>
    rw [unwind_nil hb]
    exact .inl rfl
  | cons b older =>
    right
    rw [hb] at hbranches
    have hcall : callRank p ({ m' with branches := older }.rewind b) = 0 := callRank_none rfl
    have hwaiting : returnRanks p (m'.scopes.restore b.scopes) = returnRanks p m.scopes :=
      returnRanks_of_cells h.cells
    rw [unwind_cons hb, PlainProgress.machine, measure, measure, hcall, zero_add, ← hbranches]
    dsimp only [rewind]
    rw [hwaiting]
    exact .takeUp

/-- A fault goes to the branches, or leaves none to take up. -/
theorem shrinks_fail (h : Ends m m') (fault : Fault) :
    (follow (.fail m' fault)).machine.finished = true ∨
      Shrinks ((follow (.fail m' fault)).machine.measure p) (m.measure p) := by
  cases hfatal : fault.isFatal with
  | true =>
    have hnil : (m'.raise fault).branches = [] := by
      rw [raise, hfatal]
      rfl
    left
    rw [follow, unwind_nil hnil]
    rfl
  | false =>
    refine shrinks_unwind ⟨h.cells, ?_⟩
    rw [raise, hfatal]
    exact h.branches

/-! ### Calls and returns -/

theorem shrinks_callAt (hat : p.at? m.pc = some i) {target : Nat} (hlt : m.pc < target) :
    Shrinks ((follow (m.callAt target)).machine.measure p) (m.measure p) := by
  have hcall : callRank p { m with pc := target, pendingCall := some ⟨m.pc, m.scopes.top⟩ } =
      {p.returnRank m.pc} := rfl
  rw [callAt, follow, PlainProgress.machine, measure, measure, hcall, Multiset.singleton_add]
  exact .goOn (Potential.below_of_call (Program.rank_lt_rank hat hlt)
    (Program.returnRank_lt_rank hat (Nat.le_refl m.pc)) (m.callRank p) _)

/-- Entering a scope adds its place to those of its caller, and no branch notices. -/
theorem returnRanks_enter (h : m.Rooted) {caller : Option Nat}
    (hcaller : level caller ≤ m.scopes.cells.size) {activation : Activation}
    (hactivation : activation.saved = m.scopes.top) :
    returnRanks p ((Machine.calleeScopes m.scopes caller).push activation)
        ((Machine.calleeScopes m.scopes caller).push activation).top =
      p.returnRank activation.returnPc ::ₘ returnRanks p m.scopes m.scopes.top ∧
      ∀ place, level place ≤ m.scopes.nextCell →
        returnRanks p ((Machine.calleeScopes m.scopes caller).push activation) place =
          returnRanks p m.scopes place := by
  have hlinked := Machine.calleeScopes_linked h.scopes.toLinked hcaller
  have hcells := Machine.calleeScopes_cells m.scopes caller
  have hnext := Machine.nextCell_le_calleeScopes m.scopes caller
  have htop := Machine.level_top_le_nextCell_calleeScopes m.scopes caller
  generalize Machine.calleeScopes m.scopes caller = callee at *
  have hsaved : (callee.push activation).Holds fun i activation => level activation.saved ≤ i := by
    refine Holds.push ?_ hlinked (hactivation ▸ htop)
    intro i cell hcell
    rw [hcells] at hcell
    exact h.saved i cell hcell
  -- below the new cell nothing is written
  have hbelow : ∀ place, level place ≤ callee.nextCell →
      returnsFrom (callee.push activation) place = returnsFrom m.scopes place := by
    intro place hplace
    apply returnsFrom_congr
    intro i hi
    rw [getElem?_push hlinked.nextCell_le, if_neg (by omega), hcells]
  have hnew : (callee.push activation).cells[callee.nextCell]? = some ⟨activation, callee.top⟩ := by
    rw [getElem?_push hlinked.nextCell_le, if_pos rfl]
  refine ⟨?_, ?_⟩
  · rw [push_top, returnRanks, returnsFrom_some (hlinked.push activation) hsaved hnew]
    dsimp only
    rw [hactivation, hbelow m.scopes.top htop]
    rfl
  · intro place hplace
    rw [returnRanks, returnRanks, hbelow place (Nat.le_trans hplace hnext)]

theorem shrinks_enterScope (h : m.Rooted) (hat : p.at? m.pc = some i) (id : ScopeId)
    (slots : Nat) :
    Shrinks ((follow (m.enterScope id slots p.length)).machine.measure p) (m.measure p) := by
  have hcaller : level (m.pendingCall.getD ⟨p.length, m.scopes.top⟩).caller ≤
      m.scopes.cells.size := by
    cases hcall : m.pendingCall with
    | none => exact h.scopes.top_le
    | some call => exact h.call call hcall
  unfold enterScope
  dsimp only [follow, PlainProgress.machine]
  generalize hcall : m.pendingCall.getD ⟨p.length, m.scopes.top⟩ = call at hcaller
  have hsaved : (⟨id, m.offset, call.returnPc, m.scopes.top⟩ : Activation).saved = m.scopes.top :=
    rfl
  obtain ⟨htop, hothers⟩ := returnRanks_enter (p := p) h hcaller hsaved
  generalize (Machine.calleeScopes m.scopes call.caller).push _ = entered at *
  have hbranches : (m.branches.map fun b =>
      potential p b.pc true b.stack (returnRanks p entered b.scopes.top)) =
      m.branches.map fun b =>
        potential p b.pc true b.stack (returnRanks p m.scopes b.scopes.top) := by
    apply List.map_congr_left
    intro b hb
    rw [hothers b.scopes.top (h.level_le hb)]
  rw [measure, measure, callRank_none rfl, zero_add]
  dsimp only
  rw [hbranches, htop]
  apply Shrinks.goOn
  cases hpending : m.pendingCall with
  | none =>
    -- the outermost scope returns past the end of the program
    rw [hpending] at hcall
    rw [callRank_none hpending, ← hcall]
    exact Potential.below_of_call (Program.rank_lt_rank hat (Nat.lt_succ_self m.pc))
      (Program.returnRank_lt_rank hat (Nat.le_of_lt (Program.lt_length hat))) 0 _
  | some pending =>
    rw [hpending] at hcall
    obtain rfl : pending = call := hcall
    rw [callRank, hpending]
    exact potential_below hat (Nat.lt_succ_self m.pc) _ _ _ _ _

/-- Leaving an activation, at a position that is lower than the present one or than the place that
is returned to. -/
theorem shrinks_return (h : m.Rooted) (hat : p.at? m.pc = some i) {place : Nat}
    {left : Cell Activation} (hreturns : Returns m m' place left) {pc : Nat} {resuming : Bool}
    (hlt : p.rank pc ((p.at? pc).elim 0 (·.turnsLeft resuming m'.stack)) <
        p.rank m.pc (i.turnsLeft m.resuming m.stack) ∨
      p.rank pc ((p.at? pc).elim 0 (·.turnsLeft resuming m'.stack)) <
        p.returnRank left.value.returnPc) :
    Shrinks (measure p { m' with pc, resuming }) (m.measure p) := by
  have hcall : callRank p { m' with pc, resuming } = m.callRank p :=
    callRank_congr hreturns.pendingCall
  have hplaces : returnRanks p m.scopes m.scopes.top = p.returnRank left.value.returnPc ::ₘ
      returnRanks p m.scopes left.value.saved := by
    rw [hreturns.top, returnRanks, returnsFrom_some h.scopes.toLinked h.saved hreturns.cell]
    rfl
  have hsame : returnRanks p m'.scopes = returnRanks p m.scopes := by
    rw [hreturns.scopes]
    exact returnRanks_of_cells rfl
  have htop : m'.scopes.top = left.value.saved := by
    rw [hreturns.scopes]
    rfl
  rw [measure, measure, hcall, hplaces, potential_at hat]
  dsimp only
  rw [hsame, htop, hreturns.branches]
  exact .goOn (Potential.below_of_return hlt _ _)

/-- Every effect but the end of a run is a step down. -/
theorem shrinks_follow (h : m.Rooted) (hloop : p.LoopFree) (hat : p.at? m.pc = some i)
    (hflow : Flow p m i effect) :
    (follow effect).machine.finished = true ∨
      Shrinks ((follow effect).machine.measure p) (m.measure p) := by
  have hon := hloop.leadsOn hat
  cases hflow with
  | next hm' =>
    right
    refine shrinks_goOn hat hm' ?_
    rw [hm'.pc]
    exact Nat.lt_succ_self m.pc
  | jump hleads hm' => exact .inr (shrinks_goOn hat hm' (hleads m.pc hon))
  | suspend hm' => exact .inr (shrinks_suspend hat hm')
  | call target hi =>
    rw [hi] at hon
    exact .inr (shrinks_callAt hat (of_decide_eq_true hon))
  | enter id slots hi => exact .inr (shrinks_enterScope h hat id slots)
  | ret hi hm' =>
    exact .inr (shrinks_return h hat hm' (.inr (Program.rank_lt_returnRank p _ _)))
  | @yield m' place left v hi hm' =>
    right
    refine shrinks_return h hat hm' (.inl ?_)
    -- the run waits at the same return, which has no turn left
    rw [hm'.pc, hat, hm'.forward, hi]
    exact Program.rank_lt_of_turns Nat.zero_lt_one
  | stop hm' => exact shrinks_unwind hm'
  | fail hm' => exact shrinks_fail hm' _

/-- Every dispatch but the last is a step down. -/
theorem shrinks_dispatch (h : m.Rooted) (hloop : p.LoopFree) (hrunning : m.finished = false) :
    (dispatch p m).machine.finished = true ∨
      Shrinks ((dispatch p m).machine.measure p) (m.measure p) := by
  cases hat : p.at? m.pc with
  | none =>
    rw [dispatch_outside hrunning hat]
    exact shrinks_unwind ⟨rfl, rfl⟩
  | some i =>
    rw [dispatch_at hrunning hat]
    have hne : i ≠ .callPc := by
      rintro rfl
      cases hloop.leadsOn hat
    have hexecute : ∀ ticks : Nat,
        (follow (execute { m with ticks } p i)).machine.finished = true ∨
          Shrinks ((follow (execute { m with ticks } p i)).machine.measure p) (m.measure p) :=
      fun ticks => shrinks_follow (m := { m with ticks }) { h with } hloop hat (flow_execute _ p hne)
    rcases step_eq m p i with ⟨ticks, hstep⟩ | ⟨reason, hstep⟩
    · rw [hstep]
      exact hexecute ticks
    · rw [hstep]
      exact shrinks_fail ⟨rfl, rfl⟩ _

end PlainMachine

namespace Machine

variable {p : Program} {m m' m'' : Machine} {signals : Nat → Signals}

/-! ## Runs -/

/-- One or more steps down lead from `m` to `m'`. -/
def Descends (p : Program) (m' m : Machine) : Prop :=
  Relation.TransGen Shrinks (m'.plain.measure p) (m.plain.measure p)

theorem Descends.trans (h : Descends p m'' m') (h' : Descends p m' m) : Descends p m'' m :=
  Relation.TransGen.trans h h'

theorem wellFounded_descends (p : Program) : WellFounded (Descends p) :=
  InvImage.wf (fun m : Machine => m.plain.measure p) wellFounded_shrinks.transGen

theorem descends_dispatch (h : m.Coherent) (hloop : p.LoopFree) (hrunning : m.finished = false) :
    (dispatch p m).machine.finished = true ∨ Descends p (dispatch p m).machine m := by
  have hplain := PlainMachine.shrinks_dispatch h.rooted hloop hrunning
  rw [← plain_dispatch h, machine_plain] at hplain
  exact hplain.imp_right .single

/-- Every pull gives an item, and leaves a machine further down. -/
theorem exists_gives (hloop : p.LoopFree) (h : m.Coherent) :
    ∃ m' item, Gives p m m' item ∧ m'.Coherent ∧ (m'.finished = true ∨ Descends p m' m) := by
  induction m using (wellFounded_descends p).induction with
  | _ m ih =>
    cases hrunning : m.finished with
    | true => exact ⟨m, none, gives_of_done (dispatch_finished hrunning), h, .inl hrunning⟩
    | false =>
      have hdown := descends_dispatch h hloop hrunning
      have hnext := (move_dispatch h p).coherent
      cases hd : dispatch p m with
      | done m' item =>
        rw [hd] at hdown hnext
        exact ⟨m', item, gives_of_done hd, hnext, hdown⟩
      | running m' =>
        rw [hd] at hdown hnext
        rcases hdown with hover | hdown
        · exact ⟨m', none, gives_of_running hd (gives_of_done (dispatch_finished hover)), hnext,
            .inl hover⟩
        · obtain ⟨m'', item, hgives, hcoherent, hrest⟩ := ih m' hdown hnext
          exact ⟨m'', item, gives_of_running hd hgives, hcoherent,
            hrest.imp_right (Descends.trans · hdown)⟩

/-- Whatever the host has pulled so far, sooner or later nothing is left. -/
theorem exhausted_after (hloop : p.LoopFree) {k : Nat} {item : Item} (h : m'.Coherent)
    (hpulled : Pulled p m signals k m' item) :
    ∃ last, ∀ k, last ≤ k → ∃ m'', Pulled p m signals k m'' none := by
  induction m' using (wellFounded_descends p).induction generalizing k item with
  | _ m' ih =>
    obtain ⟨m₁, item₁, hgives, hcoherent, hdown⟩ :=
      exists_gives hloop (h.withSignals (signals (k + 1)))
    have hnext : Pulled p m signals (k + 1) m₁ item₁ := .next hpulled hgives
    rcases hdown with hover | hdown
    · refine ⟨k + 2, fun j hj => ?_⟩
      obtain ⟨d, rfl⟩ := Nat.exists_eq_add_of_le hj
      obtain ⟨m'', hlast, -⟩ := pulled_finished hnext hover d
      exact ⟨m'', hlast⟩
    -- the signals do not count
    · exact ih m₁ hdown hcoherent hnext

/-- Every pull of a run gives an item, from some pull on there is nothing left, and the run takes a
finite number of dispatches. -/
structure Terminates (p : Program) (m : Machine) : Prop where
  returns : ∀ signals k, ∃ m' item, Pulled p m signals k m' item
  exhausted : ∀ signals, ∃ last, ∀ k, last ≤ k → ∃ m', Pulled p m signals k m' none
  finite : ∀ signals, ∃ last, ∀ n, last ≤ n → (course p m signals n).finished = true

theorem exists_pulled (hloop : p.LoopFree) (h : m.Coherent) (signals : Nat → Signals) (k : Nat) :
    ∃ m' item, Pulled p m signals k m' item ∧ m'.Coherent := by
  induction k with
  | zero =>
    obtain ⟨m', item, hgives, hcoherent, -⟩ := exists_gives hloop (h.withSignals (signals 0))
    exact ⟨m', item, .first hgives, hcoherent⟩
  | succ k ih =>
    obtain ⟨m₁, item₁, hpulled, hcoherent₁⟩ := ih
    obtain ⟨m', item, hgives, hcoherent, -⟩ :=
      exists_gives hloop (hcoherent₁.withSignals (signals (k + 1)))
    exact ⟨m', item, .next hpulled hgives, hcoherent⟩

/-- A run comes to its end from every state. -/
theorem exists_finished (hloop : p.LoopFree) (h : m.Coherent) (signals : Nat → Signals) (n : Nat) :
    ∃ last, (course p m signals last).finished = true := by
  -- the induction is on how far down the machine after `n` dispatches is
  induction hm : course p m signals n using (wellFounded_descends p).induction generalizing n with
  | _ m₁ ih =>
    cases hrunning : m₁.finished with
    | true => exact ⟨n, by rw [hm, hrunning]⟩
    | false =>
      have hcoherent := coherent_course h p signals n
      rw [hm] at hcoherent
      have hdown := descends_dispatch (hcoherent.withSignals (signals n)) hloop hrunning
      have hnext : course p m signals (n + 1) =
          (dispatch p (m₁.withSignals (signals n))).machine := by rw [course, hm]
      rcases hdown with hover | hdown
      · exact ⟨n + 1, by rw [hnext, hover]⟩
      · exact ih _ hdown (n + 1) hnext

/-- A loop-free program terminates, for every input, interrupt and host. -/
theorem loopFree_terminates (p : Program) (hloop : p.LoopFree) (idle : Machine)
    (settings : Settings) (input : Value) (interrupt : Option Interrupt) :
    Terminates p (idle.load settings input interrupt) := by
  have hstart := coherent_load idle settings input interrupt
  refine ⟨?_, ?_, ?_⟩
  · intro signals k
    obtain ⟨m', item, hpulled, -⟩ := exists_pulled hloop hstart signals k
    exact ⟨m', item, hpulled⟩
  · intro signals
    obtain ⟨m', item, hpulled, hcoherent⟩ := exists_pulled hloop hstart signals 0
    exact exhausted_after hloop hcoherent hpulled
  · intro signals
    obtain ⟨last, hlast⟩ := exists_finished hloop hstart signals 0
    exact ⟨last, fun n hle => finished_course hlast hle⟩

/-- A branch around an iteration, each entry of which is passed to a function. -/
def callingProgram : Program where
  name := "calling"
  code := #[.scope 0 0, .fork 4, .each, .call 5, .ret, .scope 1 0, .ret]
  functions := #[]
  lines := #[]
  natives := {}

theorem loopFree_terminates_callingProgram :
    callingProgram.LoopFree ∧
      Terminates callingProgram (load {} {} (.array #[.null, .null]) none) := by
  have hloop : callingProgram.LoopFree := by decide
  exact ⟨hloop, loopFree_terminates callingProgram hloop {} {} _ none⟩

end Machine
end QueryMachine
