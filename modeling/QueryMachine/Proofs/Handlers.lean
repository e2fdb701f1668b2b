import QueryMachine.Proofs.Backtracking

/-!
# A fault finds its handler

A fault takes up the pending branches one after the other, the most recent first, until one of
them handles it. Until then the run gives no item and calls no native function.

* `Instruction.handles`: which branches handle which faults;
* `resume_unhandled`: any other branch is exhausted at once, and the fault goes on;
* `search_course`: so the search gets past all branches that do not handle the fault. The proof is
  an induction on these branches.
-/

namespace QueryMachine

open RewindStack

/-- Whether the branch that an instruction leaves behind handles a fault. -/
def Instruction.handles (fault : Fault) : Instruction → Bool
  | .forkOpt _ => fault.isCatchable
  | .forkLabel label =>
    match fault with
    | .exit raised => raised == label
    | _ => false
  | _ => false

namespace Machine

variable {m e : Machine} {b : BranchPoint} {newer older : List BranchPoint} {p : Program}
  {i : Instruction} {fault : Fault}

/-- Whether a branch handles a fault. -/
def handles (p : Program) (fault : Fault) (b : BranchPoint) : Bool :=
  (p.at? b.pc).any (·.handles fault)

/-! ## Without an interrupt -/

/-- Without an interrupt an instruction is carried out as it is; only the count of instructions
differs. -/
theorem step_eq_execute (hi : m.interrupt = none) (p : Program) (i : Instruction) :
    ∃ ticks, m.step p i = execute { m with ticks } p i := by
  rcases step_eq m p i with hstep | ⟨reason, htripped, -⟩
  · exact hstep
  · unfold tripped? at htripped
    rw [hi] at htripped
    cases htripped

/-- A run that was started without an interrupt never gets one. -/
theorem interrupt_course (hstart : m.Coherent) (p : Program) (signals : Nat → Signals) (n : Nat) :
    (course p m signals n).interrupt = m.interrupt := by
  induction n with
  | zero => rfl
  | succ n ih => exact (move_course hstart p signals n).interrupt.trans ih

/-! ## Taking up a branch for a fault -/

/-- The continuation ends without an item when its instruction stops. -/
theorem ending?_of_stop (hrunning : m.finished = false) (hat : p.at? m.pc = some i)
    (hstop : m.step p i = .stop e) : ending? p m = some e := by
  rw [ending?_at hrunning hat, hstop]
  rfl

/-- The continuation ends when its instruction fails. -/
theorem ending?_of_fail (hrunning : m.finished = false) (hat : p.at? m.pc = some i)
    (hfail : m.step p i = .fail e fault) : ending? p m = some (e.raise fault) := by
  rw [ending?_at hrunning hat, hfail]
  rfl

/-- The machine is about to take up a branch, for a fault or because a continuation has ended. -/
structure TakesUp (m : Machine) (fault : Option Fault) : Prop where
  interrupt : m.interrupt = none
  running : m.finished = false
  resuming : m.resuming = true
  fault : m.fault = fault

theorem TakesUp.withSignals {fault : Option Fault} (h : TakesUp m fault) (signals : Signals) :
    TakesUp (m.withSignals signals) fault :=
  ⟨h.interrupt, h.running, h.resuming, h.fault⟩

/-- An instruction that does not handle the fault stops when its branch is taken up. -/
theorem execute_unhandled (hset : m.resuming = true) (hfault : m.fault = some fault)
    (hkind : i.branchKind?.isSome) (hnot : i.handles fault = false) : m.execute p i = .stop m := by
  -- only four instructions leave a branch behind
  cases i with
  | fork target => simp [execute, fork, hset, hfault]
  | forkOpt target =>
    have huncatchable : fault.isCatchable = false := hnot
    simp [execute, forkOpt, hset, hfault, huncatchable]
  | forkLabel label =>
    have hstays : m.isLeaving label = false := by
      unfold isLeaving
      rw [hfault]
      cases fault with
      | exit raised => exact hnot
      | _ => rfl
    rw [execute, forkLabel, if_neg (by simp [hset]), if_neg (by rw [hstays]; decide)]
  | each => simp [execute, iterate, hfault]
  | _ => cases hkind

/-- A branch that does not handle the fault is exhausted at once. -/
theorem resume_unhandled (h : TakesUp m (some fault)) (hat : p.at? m.pc = some i)
    (hkind : i.branchKind?.isSome) (hnot : i.handles fault = false) :
    ∃ ticks, ending? p m = some { m with ticks } := by
  obtain ⟨ticks, hstep⟩ := step_eq_execute h.interrupt p i
  refine ⟨ticks, ending?_of_stop h.running hat ?_⟩
  rw [hstep]
  exact execute_unhandled (m := { m with ticks }) h.resuming h.fault hkind hnot

/-- A recovering branch goes on at its target, with what it receives for the fault. -/
theorem resume_forkOpt {target : Nat} (h : TakesUp m (some fault))
    (hat : p.at? m.pc = some (.forkOpt target)) (hcatch : fault.isCatchable = true) :
    ∃ ticks, dispatch p m = .running
      { ({ m with ticks, fault := none, resuming := false }.pushValue fault.caught) with
        pc := target } := by
  obtain ⟨ticks, hstep⟩ := step_eq_execute h.interrupt p (.forkOpt target)
  refine ⟨ticks, ?_⟩
  rw [dispatch_at h.running hat, hstep]
  simp [execute, forkOpt, follow, h.resuming, h.fault, hcatch]

/-- The branch of the label that a run jumps out of is exhausted, and the fault is gone. -/
theorem resume_forkLabel {label : String} (h : TakesUp m (some (.exit label)))
    (hat : p.at? m.pc = some (.forkLabel label)) :
    ∃ ticks, ending? p m = some { m with ticks, fault := none } := by
  obtain ⟨ticks, hstep⟩ := step_eq_execute h.interrupt p (.forkLabel label)
  refine ⟨ticks, ending?_of_stop h.running hat ?_⟩
  rw [hstep]
  simp [execute, forkLabel, isLeaving, h.resuming, h.fault]

/-! ## The search -/

variable {signals : Nat → Signals} {n d : Nat}

/-- Where dispatch `n` of a run leads. -/
def outcome (p : Program) (m : Machine) (signals : Nat → Signals) (n : Nat) : Progress :=
  dispatch p ((course p m signals n).withSignals (signals n))

/-- From dispatch `n` on, `d` dispatches do nothing but take up branches, one each. The run gives no
item in them, and the instructions that it comes to call no native function. -/
structure Quiet (p : Program) (m : Machine) (signals : Nat → Signals) (n d : Nat) : Prop where
  running : ∀ j < d, ∃ m', outcome p m signals (n + j) = .running m'
  noCall : ∀ j, 0 < j → j ≤ d → ∀ id argc,
    p.at? (course p m signals (n + j)).pc ≠ some (.callNative id argc)
  fewer : ∀ j < d, (course p m signals (n + j + 1)).branches.length <
    (course p m signals (n + j)).branches.length

/-- The continuation of dispatch `n` ends in the machine `e`, which goes to the branches. -/
structure Searches (p : Program) (m : Machine) (signals : Nat → Signals) (n : Nat)
    (fault : Option Fault) (branches : List BranchPoint) (e : Machine) : Prop where
  ending : ending? p ((course p m signals n).withSignals (signals n)) = some e
  running : e.finished = false
  fault : e.fault = fault
  branches : e.branches = branches

/-- Dispatch `n` takes up the branch `b`, which was left behind in dispatch `k`. -/
structure Resumed (p : Program) (m : Machine) (signals : Nat → Signals) (k n : Nat)
    (fault : Option Fault) (b : BranchPoint) (older : List BranchPoint) : Prop where
  outcome : outcome p m signals n = .running (course p m signals (n + 1))
  pending : Pending (course p m signals) k n b older
  restored : Restored (course p m signals k) b (course p m signals (n + 1))
  takesUp : TakesUp (course p m signals (n + 1)) fault
  pc : (course p m signals (n + 1)).pc = b.pc
  instruction : ∃ i, p.at? (course p m signals (n + 1)).pc = some i ∧ i.branchKind? = some b.kind

/-- A search with a branch left takes it up. -/
theorem Searches.resumed {fault : Option Fault} (hstart : m.Coherent) (hnone : m.branches = [])
    (hi : m.interrupt = none) (h : Searches p m signals n fault (b :: older) e) :
    ∃ k, Resumed p m signals k n fault b older := by
  obtain ⟨k, hpending, hrestored, -, hinstruction⟩ :=
    restored_course hstart hnone h.ending h.branches
  have hnext := course_takeUp h.ending h.branches
  refine ⟨k, ?_, hpending, hrestored, ⟨?_, ?_, hrestored.resuming, ?_⟩, ?_, ?_⟩
  · rw [hnext, outcome, dispatch_of_ending? h.ending, unwind_cons h.branches]
  · rw [interrupt_course hstart]
    exact hi
  · rw [hnext]
    exact h.running
  · rw [hnext]
    exact h.fault
  · rw [hnext]
    rfl
  · rw [hnext]
    exact hinstruction

/-- The branches that are left once `b` is taken up. -/
theorem Resumed.branches {k : Nat} {fault : Option Fault}
    (h : Resumed p m signals k n fault b older) : (course p m signals (n + 1)).branches = older :=
  h.restored.branches.trans h.pending.before

namespace Quiet

/-- At first nothing has happened yet. -/
theorem zero (p : Program) (m : Machine) (signals : Nat → Signals) (n : Nat) :
    Quiet p m signals n 0 where
  running := fun j hj => absurd hj (Nat.not_lt_zero j)
  noCall := fun j hpos hle => absurd hpos (by omega)
  fewer := fun j hj => absurd hj (Nat.not_lt_zero j)

/-- A run stays quiet for one more dispatch that only takes up a branch. -/
theorem extend (h : Quiet p m signals n d)
    (hrunning : ∃ m', outcome p m signals (n + d) = .running m')
    (hnoCall : ∀ id argc, p.at? (course p m signals (n + d + 1)).pc ≠ some (.callNative id argc))
    (hfewer : (course p m signals (n + d + 1)).branches.length <
      (course p m signals (n + d)).branches.length) : Quiet p m signals n (d + 1) where
  running := by
    intro j hj
    by_cases hlast : j = d
    · rw [hlast]
      exact hrunning
    · exact h.running j (by omega)
  noCall := by
    intro j hpos hle
    by_cases hlast : j = d + 1
    · rw [hlast, ← Nat.add_assoc]
      exact hnoCall
    · exact h.noCall j hpos (by omega)
  fewer := by
    intro j hj
    by_cases hlast : j = d
    · rw [hlast]
      exact hfewer
    · exact h.fewer j (by omega)

/-- Taking up one more branch keeps the run quiet. -/
theorem succ {k : Nat} {fault : Option Fault} (h : Quiet p m signals n d)
    (hnext : Resumed p m signals k (n + d) fault b older) : Quiet p m signals n (d + 1) := by
  refine h.extend ⟨_, hnext.outcome⟩ ?_ ?_
  · intro id argc hcall
    obtain ⟨i, hat, hkind⟩ := hnext.instruction
    rw [hat] at hcall
    rw [Option.some.inj hcall] at hkind
    cases hkind
  · have hlt := hnext.pending.lt
    have hlength := (hnext.pending.since (n + d) hlt (Nat.le_refl _)).length_le
    rw [hnext.branches]
    exact hlength

/-- A branch that is pending while the run is quiet was left behind before. -/
theorem pending {k : Nat} (h : Quiet p m signals n d)
    (hpending : Pending (course p m signals) k (n + d) b older) :
    Pending (course p m signals) k n b older := by
  refine ⟨?_, hpending.before, hpending.after, fun j hj hle => hpending.since j hj (by omega)⟩
  -- each dispatch of the search leaves fewer branches, so none was left behind in it
  by_contra hle
  have hlt := hpending.lt
  have hfewer := h.fewer (k - n) (by omega)
  rw [show n + (k - n) = k by omega, hpending.before, hpending.after] at hfewer
  simp only [List.length_cons] at hfewer
  omega

end Quiet

/-- A quiet stretch is part of one pull, as long as nobody changes the signals in between. -/
theorem pull_of_quiet (h : Quiet p m signals n d)
    (hsame : ∀ j < d, (course p m signals (n + j + 1)).signals = signals (n + j + 1)) :
    pull p ((course p m signals n).withSignals (signals n)) (d + 1) =
      outcome p m signals (n + d) := by
  -- after `j` of the dispatches the pull has the others before it
  have hpull : ∀ j ≤ d, pull p ((course p m signals n).withSignals (signals n)) (d + 1) =
      pull p ((course p m signals (n + j)).withSignals (signals (n + j))) (d - j + 1) := by
    intro j hj
    induction j with
    | zero => rfl
    | succ j ih =>
      obtain ⟨m', hrunning⟩ := h.running j (by omega)
      have hnext : course p m signals (n + j + 1) = m' := by
        rw [course, show dispatch p _ = _ from hrunning]
        rfl
      rw [ih (by omega), show d - j + 1 = d - (j + 1) + 1 + 1 by omega, pull,
        show dispatch p _ = _ from hrunning]
      dsimp only
      rw [← Nat.add_assoc n j 1, ← hsame j (by omega), hnext]
  rw [hpull d (Nat.le_refl d), Nat.sub_self, pull, outcome]
  cases dispatch p ((course p m signals (n + d)).withSignals (signals (n + d))) with
  | running m' => rfl
  | done m' item => rfl

/-- A search gets past the branches that do not handle the fault. -/
theorem search_course (hstart : m.Coherent) (hnone : m.branches = []) (hi : m.interrupt = none)
    (hquiet : Quiet p m signals n d)
    (h : Searches p m signals (n + d) (some fault) (newer ++ older) e)
    (hnewer : ∀ c ∈ newer, handles p fault c = false) :
    ∃ d' e', Quiet p m signals n d' ∧ Searches p m signals (n + d') (some fault) older e' := by
  induction newer generalizing d e with
  | nil => exact ⟨d, e, hquiet, h⟩
  | cons c newer ih =>
    obtain ⟨k, hresumed⟩ := h.resumed hstart hnone hi
    obtain ⟨i, hat, hkind⟩ := hresumed.instruction
    have htakes := hresumed.takesUp
    have hnot : i.handles fault = false := by
      have hc := hnewer c List.mem_cons_self
      rw [handles, ← hresumed.pc, hat] at hc
      exact hc
    -- the branch is exhausted, and the search goes on in the next dispatch
    obtain ⟨ticks, hending⟩ := resume_unhandled (i := i)
      (htakes.withSignals (signals (n + d + 1))) hat (by rw [hkind]; rfl) hnot
    exact ih (hquiet.succ hresumed) ⟨hending, htakes.running, htakes.fault, hresumed.branches⟩
      fun c' hc' => hnewer c' (List.mem_cons_of_mem c hc')

/-! ## Where the search ends -/

/-- The machine goes on at the target of a recovering branch. Its stacks are those of the machine
`old` that left the branch behind, with the caught value on top of the operands. -/
structure Recovered (old : Machine) (older : List BranchPoint) (target : Nat) (caught : Value)
    (m : Machine) : Prop where
  pc : m.pc = target
  resuming : m.resuming = false
  fault : m.fault = none
  branches : m.branches = older
  scopes : SameScopes old m
  pathDepth : m.pathDepth = old.pathDepth
  paths : m.paths.chain = old.paths.chain
  stack : m.stack.toList = .value caught :: old.stack.toList

/-- What becomes of a fault that is raised in dispatch `n` of a run. -/
structure Settled (p : Program) (m : Machine) (signals : Nat → Signals) (n : Nat)
    (fault : Fault) : Prop where
  /-- The most recent recovering branch catches an ordinary fault. -/
  recovers : ∀ newer b older target, fault.kind = .ordinary →
    (course p m signals n).branches = newer ++ b :: older →
    (∀ c ∈ newer, handles p fault c = false) → p.at? b.pc = some (.forkOpt target) →
    ∃ d k m', Quiet p m signals n d ∧ outcome p m signals (n + d) = .running m' ∧
      Pending (course p m signals) k n b older ∧
      Recovered (course p m signals k) older target fault.caught m'
  /-- The most recent branch of its label ends a jump, and the run goes on with the older
  branches, or is over without a fault. -/
  leaves : ∀ newer b older label, fault = .exit label →
    (course p m signals n).branches = newer ++ b :: older →
    (∀ c ∈ newer, handles p fault c = false) → p.at? b.pc = some (.forkLabel label) →
    ∃ d, Quiet p m signals n d ∧
      (older = [] → ∃ m', outcome p m signals (n + d) = .done m' none ∧ m'.finished = true ∧
        m'.branches = []) ∧
      ∀ c rest, older = c :: rest → ∃ k < n, Resumed p m signals k (n + d) none c rest
  /-- A fault without a handler ends the run; a fatal one does so at once. -/
  fails : (∀ c ∈ (course p m signals n).branches, handles p fault c = false) →
    ∃ d m', Quiet p m signals n d ∧ outcome p m signals (n + d) = .done m' (some (.error fault)) ∧
      m'.finished = true ∧ m'.branches = []
  discards : fault.kind = .fatal → ∃ m', outcome p m signals n = .done m' (some (.error fault)) ∧
    m'.finished = true ∧ m'.branches = []

/-- A fault that is not fatal starts a search of the branches. -/
theorem searches_of_fail (hstart : m.Coherent)
    (hrunning : (course p m signals n).finished = false)
    (hat : p.at? (course p m signals n).pc = some i)
    (hfail : ((course p m signals n).withSignals (signals n)).step p i = .fail e fault)
    (hfatal : fault.isFatal = false) :
    Searches p m signals n (some fault) (course p m signals n).branches (e.raise fault) := by
  have hending := ending?_of_fail (m := (course p m signals n).withSignals (signals n)) hrunning
    hat hfail
  have hcoherent := (coherent_course hstart p signals n).withSignals (signals n)
  refine ⟨hending, (ending?_untouched hending).finished.trans hrunning, rfl, ?_⟩
  rcases step_cases hcoherent p i with hforward | ⟨b, m', hnext, -⟩
  · rw [hfail] at hforward
    exact (forward_raise hforward.coherent hfatal).branches.trans hforward.branches
  · rw [hfail] at hnext
    cases hnext

/-- A fatal fault discards the branches, and the run is over. -/
theorem discarded_of_fatal (hrunning : (course p m signals n).finished = false)
    (hat : p.at? (course p m signals n).pc = some i)
    (hfail : ((course p m signals n).withSignals (signals n)).step p i = .fail e fault)
    (hfatal : fault.isFatal = true) :
    ∃ m', outcome p m signals n = .done m' (some (.error fault)) ∧ m'.finished = true ∧
      m'.branches = [] := by
  have hending := ending?_of_fail (m := (course p m signals n).withSignals (signals n)) hrunning
    hat hfail
  have hnil : (e.raise fault).branches = [] := by
    rw [raise, hfatal]
    rfl
  exact ⟨_, (dispatch_of_ending? hending).trans (unwind_nil hnil), rfl, hnil⟩

/-- A search that runs out of branches ends the run with its fault. -/
theorem Searches.over (h : Searches p m signals n (some fault) [] e) :
    ∃ m', outcome p m signals n = .done m' (some (.error fault)) ∧ m'.finished = true ∧
      m'.branches = [] := by
  refine ⟨{ e with fault := none, finished := true }, ?_, rfl, h.branches⟩
  rw [outcome, dispatch_of_ending? h.ending, unwind_nil h.branches, h.fault]
  rfl

/-- A search that comes to a recovering branch goes on forward at its target. -/
theorem Searches.recovered {target : Nat} (hstart : m.Coherent) (hnone : m.branches = [])
    (hi : m.interrupt = none) (hquiet : Quiet p m signals n d)
    (h : Searches p m signals (n + d) (some fault) (b :: older) e)
    (hat : p.at? b.pc = some (.forkOpt target)) (hcatch : fault.isCatchable = true) :
    ∃ d k m', Quiet p m signals n d ∧ outcome p m signals (n + d) = .running m' ∧
      Pending (course p m signals) k n b older ∧
      Recovered (course p m signals k) older target fault.caught m' := by
  obtain ⟨k, hresumed⟩ := h.resumed hstart hnone hi
  have hrestored := hresumed.restored
  -- no entries lie on the operands of a recovering branch
  have hkind : b.kind ≠ .each := by
    obtain ⟨i, hi, hkind⟩ := hresumed.instruction
    rw [hresumed.pc, hat] at hi
    rw [← Option.some.inj hi] at hkind
    rw [← Option.some.inj hkind]
    decide
  obtain ⟨ticks, hdispatch⟩ := resume_forkOpt
    (hresumed.takesUp.withSignals (signals (n + d + 1))) (hresumed.pc ▸ hat) hcatch
  refine ⟨d + 1, k, _, hquiet.succ hresumed, hdispatch, hquiet.pending hresumed.pending, ?_⟩
  have hlinked := (coherent_course hstart p signals (n + d + 1)).stack.toLinked
  refine ⟨rfl, rfl, rfl, hresumed.branches, { hrestored.scopes with }, hrestored.pathDepth,
    hrestored.paths, ?_⟩
  refine (toList_push hlinked (.value fault.caught)).trans ?_
  rw [toList, hrestored.stack hkind, toList]

/-- A search that comes to the branch of the label that it leaves ends there without a fault. -/
theorem Searches.left {label : String} (hstart : m.Coherent) (hnone : m.branches = [])
    (hi : m.interrupt = none) (hquiet : Quiet p m signals n d)
    (h : Searches p m signals (n + d) (some (.exit label)) (b :: older) e)
    (hat : p.at? b.pc = some (.forkLabel label)) :
    ∃ d, Quiet p m signals n d ∧
      (older = [] → ∃ m', outcome p m signals (n + d) = .done m' none ∧ m'.finished = true ∧
        m'.branches = []) ∧
      ∀ c rest, older = c :: rest → ∃ k < n, Resumed p m signals k (n + d) none c rest := by
  obtain ⟨k, hresumed⟩ := h.resumed hstart hnone hi
  have htakes := hresumed.takesUp.withSignals (signals (n + d + 1))
  obtain ⟨ticks, hending⟩ := resume_forkLabel htakes (hresumed.pc ▸ hat)
  have hquiet' := hquiet.succ hresumed
  -- the branch of the label is exhausted, and no fault is left
  refine ⟨d + 1, hquiet', ?_, ?_⟩
  · intro hempty
    have hnil := hresumed.branches.trans hempty
    exact ⟨_, (dispatch_of_ending? hending).trans (unwind_nil hnil), rfl, hnil⟩
  · intro c rest hcons
    have hleft : Searches p m signals (n + (d + 1)) none (c :: rest) _ :=
      ⟨hending, htakes.running, rfl, hresumed.branches.trans hcons⟩
    obtain ⟨k', hresumed'⟩ := hleft.resumed hstart hnone hi
    exact ⟨k', (hquiet'.pending hresumed'.pending).lt, hresumed'⟩

/-- Every fault of a run without an interrupt is settled in this way. -/
theorem fault_settled (p : Program) (idle : Machine) (settings : Settings) (input : Value)
    (signals : Nat → Signals) (n : Nat) {i : Instruction} {e : Machine} {fault : Fault}
    (hrunning : (course p (idle.load settings input none) signals n).finished = false)
    (hat : p.at? (course p (idle.load settings input none) signals n).pc = some i)
    (hfail : ((course p (idle.load settings input none) signals n).withSignals
      (signals n)).step p i = .fail e fault) :
    Settled p (idle.load settings input none) signals n fault := by
  have hstart := coherent_load idle settings input none
  have hi : (idle.load settings input none).interrupt = none := rfl
  have hnone : (idle.load settings input none).branches = [] := rfl
  generalize idle.load settings input none = m at *
  have hsearches := searches_of_fail hstart hrunning hat hfail
  refine ⟨?_, ?_, ?_, ?_⟩
  · intro newer b older target hkind hbranches hnewer htarget
    have hcatch : fault.isCatchable = true := by
      rw [Fault.isCatchable, hkind]
      rfl
    have hsearch := hsearches (by rw [Fault.isFatal, hkind]; rfl)
    rw [hbranches] at hsearch
    obtain ⟨d, e', hquiet, h⟩ := search_course hstart hnone hi (.zero p m signals n) hsearch hnewer
    exact h.recovered hstart hnone hi hquiet htarget hcatch
  · intro newer b older label hexit hbranches hnewer hlabel
    have hsearch := hsearches (by rw [hexit]; rfl)
    rw [hbranches] at hsearch
    obtain ⟨d, e', hquiet, h⟩ := search_course hstart hnone hi (.zero p m signals n) hsearch hnewer
    rw [hexit] at h
    exact h.left hstart hnone hi hquiet hlabel
  · intro hall
    cases hfatal : fault.isFatal with
    | true =>
      obtain ⟨m', hover⟩ := discarded_of_fatal hrunning hat hfail hfatal
      exact ⟨0, m', .zero p m signals n, hover⟩
    | false =>
      have hsearch := hsearches hfatal
      -- no branch is left to stop at
      rw [← List.append_nil (course p m signals n).branches] at hsearch
      obtain ⟨d, e', hquiet, h⟩ := search_course hstart hnone hi (.zero p m signals n) hsearch hall
      obtain ⟨m', hover⟩ := h.over
      exact ⟨d, m', hquiet, hover⟩
  · intro hkind
    exact discarded_of_fatal hrunning hat hfail (by rw [Fault.isFatal, hkind]; rfl)

/-- An iteration over null fails below a recovering branch. -/
def recoveringProgram : Program where
  name := "recovering"
  code := #[.scope 0 0, .forkOpt 3, .each, .ret]
  functions := #[]
  lines := #[]
  natives := {}

theorem fault_settled_recoveringProgram :
    (course recoveringProgram (load {} {} .null none) (fun _ => {}) 2).finished = false ∧
      recoveringProgram.at?
        (course recoveringProgram (load {} {} .null none) (fun _ => {}) 2).pc = some .each ∧
      ∃ e, ((course recoveringProgram (load {} {} .null none) (fun _ => {}) 2).withSignals
        {}).step recoveringProgram .each = .fail e (.notIterable .null) ∧
      Settled recoveringProgram (load {} {} .null none) (fun _ => {}) 2 (.notIterable .null) :=
  ⟨rfl, rfl, _, rfl, fault_settled recoveringProgram {} {} .null (fun _ => {}) 2 rfl rfl rfl⟩

end Machine
end QueryMachine
