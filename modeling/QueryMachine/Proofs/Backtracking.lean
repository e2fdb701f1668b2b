import QueryMachine.Proofs.Dispatch

/-!
# Backtracking restores the scopes

When a branch is taken up, the machine looks up variables in the activations that were there
when the branch was left behind, however many calls were made and returned from in between.

* `Pending`: a branch left behind in a dispatch of the run is still there some dispatches later;
* `Kept`: whatever the branch goes back to is still as it was;
* `remembers_course`: every branch of every machine of a run is of this kind. The proof is an
  induction on the run over the four moves of a dispatch;
* `restored_course`: so a branch that is taken up brings its machine back.
-/

namespace QueryMachine

open RewindStack

/-! ## Reachable activations -/

/-- The activations that can be reached from a place, by the links of the lexical chain and by
the saved links to the callers. -/
inductive Reaches (scopes : RewindStack Activation) : Option Nat → Nat → Prop where
  | here (i : Nat) : Reaches scopes (some i) i
  | lexical {i j : Nat} {cell : Cell Activation} (hc : scopes.cells[i]? = some cell)
      (h : Reaches scopes cell.below j) : Reaches scopes (some i) j
  | caller {i j : Nat} {cell : Cell Activation} (hc : scopes.cells[i]? = some cell)
      (h : Reaches scopes cell.value.saved j) : Reaches scopes (some i) j

/-- Links to lexical parents and to callers lead downwards. -/
def Descends (scopes : RewindStack Activation) : Prop :=
  ∀ (i : Nat) (cell : Cell Activation), scopes.cells[i]? = some cell →
    level cell.below ≤ i ∧ level cell.value.saved ≤ i

/-- Nothing above a place is reachable from it. -/
theorem Reaches.lt_level {scopes : RewindStack Activation} (hdescends : Descends scopes)
    {place : Option Nat} {j : Nat} (h : Reaches scopes place j) : j < level place := by
  induction h with
  | here i => exact Nat.lt_succ_self i
  | @lexical i j cell hc h ih =>
    have hle := (hdescends i cell hc).1
    rw [level_some]
    omega
  | @caller i j cell hc h ih =>
    have hle := (hdescends i cell hc).2
    rw [level_some]
    omega

/-- Reachability only depends on the cells below the level of the place. -/
theorem Reaches.congr {scopes scopes' : RewindStack Activation} (hdescends : Descends scopes)
    {place : Option Nat} {j : Nat}
    (hsame : ∀ i < level place, scopes'.cells[i]? = scopes.cells[i]?)
    (h : Reaches scopes place j) : Reaches scopes' place j := by
  induction h with
  | here i => exact .here i
  | @lexical i j cell hc h ih =>
    have hle := (hdescends i cell hc).1
    rw [level_some] at hsame
    exact .lexical ((hsame i (Nat.lt_succ_self i)).trans hc) (ih fun k hk => hsame k (by omega))
  | @caller i j cell hc h ih =>
    have hle := (hdescends i cell hc).2
    rw [level_some] at hsame
    exact .caller ((hsame i (Nat.lt_succ_self i)).trans hc) (ih fun k hk => hsame k (by omega))

namespace Machine

variable {m m' old : Machine} {b : BranchPoint} {older : List BranchPoint} {p : Program}

/-! ## What a branch goes back to -/

/-- The branch `b` was left behind by the machine `old`, and whatever it goes back to is in the
machine `m` as it was. -/
structure Kept (old : Machine) (b : BranchPoint) (m : Machine) : Prop where
  pc : b.pc = old.pc
  pathDepth : b.pathDepth = old.pathDepth
  savedScopes : b.scopes = old.scopes.savepoint
  savedPaths : b.paths = old.paths.savepoint
  savedStack : b.kind ≠ .each → b.stack = old.stack.savepoint
  scopes : ∀ i < reach b.scopes, m.scopes.cells[i]? = old.scopes.cells[i]?
  paths : ∀ i < reach b.paths, m.paths.cells[i]? = old.paths.cells[i]?
  stack : b.kind ≠ .each → ∀ i < reach b.stack, m.stack.cells[i]? = old.stack.cells[i]?
  offset_le : old.offset ≤ m.offset

/-- Freezing a stack freezes all that its savepoint relies on. -/
theorem same_of_savepoint {α : Type} {s t : RewindStack α} (hext : s.freeze.Extends t) :
    ∀ i < reach s.savepoint, t.cells[i]? = s.cells[i]? := by
  intro i hi
  apply hext.same i
  show i < level (higher s.top s.frozen)
  rw [level_higher]
  exact hi

theorem Branched.kept (h : Branched m b m') : Kept m b m' where
  pc := h.pc
  pathDepth := h.pathDepth
  savedScopes := h.savedScopes
  savedPaths := h.savedPaths
  savedStack := h.savedStack
  scopes := by
    rw [h.savedScopes]
    exact same_of_savepoint h.scopes
  paths := by
    rw [h.savedPaths]
    exact same_of_savepoint h.paths
  stack := by
    intro hkind
    rw [h.savedStack hkind]
    exact same_of_savepoint (h.stackFrozen hkind)
  offset_le := h.offset_le

/-- `m'` has all that is frozen in `m` as it is there. -/
structure SameFrozen (m m' : Machine) : Prop where
  stack : ∀ i < level m.stack.frozen, m'.stack.cells[i]? = m.stack.cells[i]?
  paths : ∀ i < level m.paths.frozen, m'.paths.cells[i]? = m.paths.cells[i]?
  scopes : ∀ i < level m.scopes.frozen, m'.scopes.cells[i]? = m.scopes.cells[i]?
  offset_le : m.offset ≤ m'.offset

theorem Forward.sameFrozen (h : Forward m m') : SameFrozen m m' :=
  ⟨h.stack.same, h.paths.same, h.scopes.same, h.offset_le⟩

theorem Branched.sameFrozen (h : Branched m b m') : SameFrozen m m' :=
  ⟨h.stack.same, ((Extends.freeze _).trans h.paths).same, ((Extends.freeze _).trans h.scopes).same,
    h.offset_le⟩

/-- As long as the branch is pending, nothing that it goes back to is written. -/
theorem Kept.of_sameFrozen (h : Kept old b m) (hcoherent : m.Coherent) (hb : b ∈ m.branches)
    (hsame : SameFrozen m m') : Kept old b m' where
  pc := h.pc
  pathDepth := h.pathDepth
  savedScopes := h.savedScopes
  savedPaths := h.savedPaths
  savedStack := h.savedStack
  scopes := by
    intro i hi
    have hle := hcoherent.scopes.guards.reach_le (List.mem_map_of_mem hb)
    rw [hsame.scopes i (Nat.lt_of_lt_of_le hi hle), h.scopes i hi]
  paths := by
    intro i hi
    have hle := hcoherent.paths.guards.reach_le (List.mem_map_of_mem hb)
    rw [hsame.paths i (Nat.lt_of_lt_of_le hi hle), h.paths i hi]
  stack := by
    intro hkind i hi
    have hle := hcoherent.stack.guards.reach_le (List.mem_map_of_mem hb)
    rw [hsame.stack i (Nat.lt_of_lt_of_le hi hle), h.stack hkind i hi]
  offset_le := Nat.le_trans h.offset_le hsame.offset_le

/-! ## Pending branches -/

/-- The branch `b`, with the branches `older` below it, was left behind in dispatch `k` of the
run, and it has been pending from then on up to the machine after `n` dispatches. -/
structure Pending (run : Nat → Machine) (k n : Nat) (b : BranchPoint)
    (older : List BranchPoint) : Prop where
  lt : k < n
  before : (run k).branches = older
  after : (run (k + 1)).branches = b :: older
  since : ∀ i, k < i → i ≤ n → b :: older <:+ (run i).branches

/-- The branch was left behind in some earlier dispatch, by an instruction of its kind, has been
pending since, and still finds what it goes back to. -/
def Remembers (p : Program) (run : Nat → Machine) (n : Nat) (b : BranchPoint)
    (older : List BranchPoint) : Prop :=
  ∃ k, Pending run k n b older ∧ Kept (run k) b (run n) ∧
    ∃ i, p.at? b.pc = some i ∧ i.branchKind? = some b.kind

/-- A branch that was pending before a dispatch and is so after it is still remembered. -/
theorem Remembers.succ {run : Nat → Machine} {n : Nat} (h : Remembers p run n b older)
    (hcoherent : (run n).Coherent) (hsuffix : b :: older <:+ (run (n + 1)).branches)
    (hsame : SameFrozen (run n) (run (n + 1))) : Remembers p run (n + 1) b older := by
  obtain ⟨k, hpending, hkept, hinstruction⟩ := h
  -- a pending branch guards what it goes back to
  have hmem : b ∈ (run n).branches :=
    (hpending.since n hpending.lt (Nat.le_refl n)).subset List.mem_cons_self
  refine ⟨k, ?_, hkept.of_sameFrozen hcoherent hmem hsame, hinstruction⟩
  refine ⟨Nat.lt_succ_of_lt hpending.lt, hpending.before, hpending.after, ?_⟩
  intro i hi hle
  by_cases hlast : i = n + 1
  · rw [hlast]
    exact hsuffix
  · exact hpending.since i hi (by omega)

/-- The branch that a dispatch leaves behind is remembered. -/
theorem Remembers.pushed {run : Nat → Machine} {n : Nat} (h : Branched (run n) b (run (n + 1)))
    {i : Instruction} (hat : p.at? (run n).pc = some i) (hkind : i.branchKind? = some b.kind) :
    Remembers p run (n + 1) b (run n).branches := by
  refine ⟨n, ⟨Nat.lt_succ_self n, rfl, h.branches, ?_⟩, h.kept, i, ?_, hkind⟩
  · intro j hj hle
    obtain rfl : j = n + 1 := by omega
    exact h.branches ▸ List.suffix_rfl
  · rw [h.pc]
    exact hat

variable {signals : Nat → Signals}

/-- Every branch of every machine of a run is remembered. -/
theorem remembers_course (hstart : m.Coherent) (hnone : m.branches = []) (n : Nat) :
    ∀ b older, b :: older <:+ (course p m signals n).branches →
      Remembers p (course p m signals) n b older := by
  induction n with
  | zero =>
    intro b older hsuffix
    rw [course, hnone, List.suffix_nil] at hsuffix
    cases hsuffix
  | succ n ih =>
    intro b older hsuffix
    -- a branch that is pending now was left behind just now, or was pending before
    have hcoherent := coherent_course hstart p signals n
    have hmove := move_course hstart p signals n
    have hstays : SameFrozen (course p m signals n) (course p m signals (n + 1)) →
        b :: older <:+ (course p m signals n).branches →
        Remembers p (course p m signals) (n + 1) b older :=
      fun hsame hold => (ih b older hold).succ hcoherent hsuffix hsame
    generalize hnext : course p m signals (n + 1) = next at hsuffix hmove hstays
    cases hmove with
    | forward h =>
      rw [h.branches] at hsuffix
      exact hstays { h.sameFrozen with } hsuffix
    | @branch _ i b' hat hkind h =>
      rw [h.branches, List.suffix_cons_iff] at hsuffix
      rcases hsuffix with hnew | hold
      · obtain ⟨rfl, rfl⟩ := List.cons.inj hnew
        rw [← hnext] at h
        exact .pushed { h with } hat hkind
      · exact hstays { h.sameFrozen with } hold
    | takeUp hend h hb =>
      -- the branches left over were pending below the one that is taken up
      refine hstays ⟨h.stack.same, h.paths.same, h.scopes.same, h.offset_le⟩ ?_
      rw [h.branches] at hb
      rw [show (course p m signals n).branches = _ from hb]
      exact hsuffix.trans (List.suffix_cons _ _)
    | ended h hb hf hi =>
      rw [hb, List.suffix_nil] at hsuffix
      cases hsuffix

/-! ## What the end of a continuation leaves alone -/

/-- The registers and the recorded path are those of the machine before, and the run is as far. -/
structure Untouched (m m' : Machine) : Prop where
  registers : m'.registers = m.registers
  offset : m'.offset = m.offset
  paths : m'.paths = m.paths
  finished : m'.finished = m.finished

/-- An instruction that ends a continuation has touched neither. -/
theorem execute_ended {i : Instruction} {e : Machine} (he : (m.execute p i).ended? = some e) :
    Untouched m e := by
  cases i with
  -- these always go on
  | nop | push | jump | call | pushPc | scope => cases he
  | backtrack =>
    cases he
    exact ⟨rfl, rfl, rfl, rfl⟩
  | each =>
    simp only [execute, iterate] at he
    split at he
    · cases he
      exact ⟨rfl, rfl, rfl, rfl⟩
    · split at he
      · cases he
        exact ⟨rfl, rfl, rfl, rfl⟩
      · rename_i x popped hp
        obtain ⟨t, -, rfl⟩ := popOperand_eq_ok hp
        split at he
        all_goals cases he
        all_goals exact ⟨rfl, rfl, rfl, rfl⟩
  | callNative id argc =>
    simp only [execute, callNative] at he
    split at he
    · cases he
      exact ⟨rfl, rfl, rfl, rfl⟩
    · rename_i input args popped hp
      obtain ⟨t, rfl⟩ := popCall_eq_ok hp
      obtain ⟨signals, hcalled⟩ := tripFlag_eq { m with stack := t } p.natives id argc
      rw [hcalled] at he
      split at he
      · cases he
        exact ⟨rfl, rfl, rfl, rfl⟩
      · split at he
        · cases he
          exact ⟨rfl, rfl, rfl, rfl⟩
        · cases he
  -- these end a continuation only before they have changed anything
  | pop | dup | swap | const | object | jumpIfNot | load | store | append | callPc | fork
  | forkOpt | forkLabel | ret | pathBegin | pathEnd =>
    simp only [execute, dropTop, duplicate, exchange, replaceTop, buildObject, jumpUnless,
      loadVariable, storeVariable, appendVariable, callClosure, fork, forkOpt, forkLabel,
      leaveScope, openPath, closePath] at he
    repeat' split at he
    all_goals cases he
    all_goals exact ⟨rfl, rfl, rfl, rfl⟩

theorem ending?_untouched {e : Machine} (he : ending? p m = some e) : Untouched m e := by
  rcases standing p m with hfinished | ⟨hrunning, hat⟩ | ⟨i, hrunning, hat⟩
  · rw [ending?_finished hfinished] at he
    cases he
  · rw [ending?_outside hrunning hat] at he
    cases he
    exact ⟨rfl, rfl, rfl, rfl⟩
  · rw [ending?_at hrunning hat] at he
    rcases step_eq m p i with ⟨ticks, hstep⟩ | ⟨reason, -, hstep⟩
    · rw [hstep] at he
      exact { execute_ended he with }
    · rw [hstep] at he
      cases he
      exact ⟨rfl, rfl, rfl, rfl⟩

/-! ## Taking up a branch -/

theorem Coherent.descends (h : m.Coherent) : Descends m.scopes :=
  fun i cell hc => ⟨h.scopes.below_le i cell hc, h.saved i cell hc⟩

/-- The scopes of two machines are the same as far as variables and returns can tell: the cursor
is, and so is every activation that can be reached from it. -/
structure SameScopes (m m' : Machine) : Prop where
  top : m'.scopes.top = m.scopes.top
  reaches : ∀ j, Reaches m'.scopes m'.scopes.top j ↔ Reaches m.scopes m.scopes.top j
  cells : ∀ j, Reaches m.scopes m.scopes.top j →
    ∃ cell, m.scopes.cells[j]? = some cell ∧ m'.scopes.cells[j]? = some cell

/-- Scopes with the same cursor and the same cells below it are the same. -/
theorem SameScopes.of_cells (h : m.Coherent) (h' : m'.Coherent)
    (htop : m'.scopes.top = m.scopes.top)
    (hsame : ∀ i < level m.scopes.top, m'.scopes.cells[i]? = m.scopes.cells[i]?) :
    SameScopes m m' where
  top := htop
  reaches := by
    intro j
    rw [htop]
    exact ⟨.congr h'.descends fun i hi => (hsame i hi).symm, .congr h.descends hsame⟩
  cells := by
    intro j hj
    -- what can be reached lies below the cursor
    have hlt := hj.lt_level h.descends
    have hsize := h.scopes.top_le
    have hplace : level (some j) ≤ m.scopes.cells.size := by
      rw [level_some]
      omega
    obtain ⟨cell, hcell⟩ := Linked.exists_cell hplace
    exact ⟨cell, hcell, (hsame j hlt).trans hcell⟩

/-- Taking up a branch that was kept brings back the scopes it was left behind with. -/
theorem Kept.sameScopes (h : Kept old b m) (hold : old.Coherent)
    (hnew : (m.rewind b).Coherent) : SameScopes old (m.rewind b) := by
  have htop : b.scopes.top = old.scopes.top := by
    rw [h.savedScopes]
    rfl
  refine .of_cells hold hnew htop fun i hi => h.scopes i ?_
  rw [reach, htop]
  omega

/-- The machine `m` has taken up the branch `b`, and what lies on its stacks is what lay there in
the machine `old` that left the branch behind. Only an iteration has more on its operand stack:
the entries that it has still to visit. -/
structure Restored (old : Machine) (b : BranchPoint) (m : Machine) : Prop where
  pc : m.pc = old.pc
  resuming : m.resuming = true
  scopes : SameScopes old m
  branches : m.branches = old.branches
  pathDepth : m.pathDepth = old.pathDepth
  paths : m.paths.chain = old.paths.chain
  stack : b.kind ≠ .each → m.stack.chain = old.stack.chain
  pendingCall : m.pendingCall = none

/-- Taking up a branch that was kept brings back the machine that left it behind. -/
theorem Kept.restored (h : Kept old b m) (hold : old.Coherent) (hnew : (m.rewind b).Coherent)
    (hbranches : m.branches = old.branches) : Restored old b (m.rewind b) where
  pc := h.pc
  resuming := rfl
  scopes := h.sameScopes hold hnew
  branches := hbranches
  pathDepth := h.pathDepth
  paths := by
    have hsame := h.paths
    rw [h.savedPaths] at hsame
    show (m.paths.restore b.paths).chain = old.paths.chain
    rw [h.savedPaths]
    exact chain_restore_savepoint hsame
  stack := by
    intro hkind
    have hsame := h.stack hkind
    rw [h.savedStack hkind] at hsame
    show (m.stack.restore b.stack).chain = old.stack.chain
    rw [h.savedStack hkind]
    exact chain_restore_savepoint hsame
  pendingCall := rfl

/-- The machine after a dispatch that takes up a branch. -/
theorem course_takeUp {n : Nat} {e : Machine}
    (hend : ending? p ((course p m signals n).withSignals (signals n)) = some e)
    (hb : e.branches = b :: older) :
    course p m signals (n + 1) = { e with branches := older }.rewind b := by
  rw [course, dispatch_of_ending? hend, unwind_cons hb]
  rfl

/-- Whenever a run takes up a branch, the branch was left behind in some earlier dispatch, and the
machine of that moment is back. -/
theorem restored_course (hstart : m.Coherent) (hnone : m.branches = []) {n : Nat} {e : Machine}
    (hend : ending? p ((course p m signals n).withSignals (signals n)) = some e)
    (hb : e.branches = b :: older) :
    ∃ k, Pending (course p m signals) k n b older ∧
      Restored (course p m signals k) b (course p m signals (n + 1)) ∧
      (course p m signals k).offset ≤ (course p m signals n).offset ∧
      ∃ i, p.at? b.pc = some i ∧ i.branchKind? = some b.kind := by
  have hcoherent := coherent_course hstart p signals
  have hforward : Forward ((course p m signals n).withSignals (signals n)) e := by
    rcases ending?_eq_some ((hcoherent n).withSignals (signals n)) hend with h | ⟨hnil, -⟩
    · exact h
    · rw [hb] at hnil
      cases hnil
  have hbranches : (course p m signals n).branches = b :: older :=
    hforward.branches.symm.trans hb
  -- the branch was left behind in dispatch `k`, and is intact up to the end of the continuation
  obtain ⟨k, hpending, hkept, hinstruction⟩ :=
    remembers_course hstart hnone n b older ⟨[], hbranches.symm⟩
  have hmem : b ∈ (course p m signals n).branches := by
    rw [hbranches]
    exact List.mem_cons_self
  have hkept' := hkept.of_sameFrozen (hcoherent n) hmem { hforward.sameFrozen with }
  have hended : Kept (course p m signals k) b { e with branches := older } := { hkept' with }
  refine ⟨k, hpending, ?_, hkept.offset_le, hinstruction⟩
  rw [course_takeUp hend hb]
  exact hended.restored (hcoherent k) (hforward.coherent.rewind hb) hpending.before.symm

/-- What the machine after dispatch `n` has back from dispatch `k`: its scopes, its older branches
and its open path. No call is pending, and the registers are those of the moment before. -/
structure ScopesBack (run : Nat → Machine) (k n : Nat) : Prop where
  scopes : SameScopes (run k) (run (n + 1))
  branches : (run (n + 1)).branches = (run k).branches
  pathDepth : (run (n + 1)).pathDepth = (run k).pathDepth
  pendingCall : (run (n + 1)).pendingCall = none
  registers : (run (n + 1)).registers = (run n).registers
  offset : (run (n + 1)).offset = (run n).offset
  offset_le : (run k).offset ≤ (run n).offset

/-- Whenever a run takes up a branch, it has back what there was when the branch was left
behind. -/
theorem scopes_restored (p : Program) (idle : Machine) (settings : Settings) (input : Value)
    (interrupt : Option Interrupt) (signals : Nat → Signals) (n : Nat) {e : Machine}
    {b : BranchPoint} {older : List BranchPoint}
    (hend : ending? p ((course p (idle.load settings input interrupt) signals n).withSignals
      (signals n)) = some e) (hb : e.branches = b :: older) :
    ∃ k, Pending (course p (idle.load settings input interrupt) signals) k n b older ∧
      ScopesBack (course p (idle.load settings input interrupt) signals) k n := by
  have hstart := coherent_load idle settings input interrupt
  obtain ⟨k, hpending, hrestored, hoffset, -⟩ := restored_course hstart rfl hend hb
  have huntouched := ending?_untouched hend
  refine ⟨k, hpending, hrestored.scopes, hrestored.branches, hrestored.pathDepth,
    hrestored.pendingCall, ?_, ?_, hoffset⟩
  · rw [course_takeUp hend hb]
    exact huntouched.registers
  · rw [course_takeUp hend hb]
    exact huntouched.offset

/-- A closure over an activation is called after a branch was left behind, so that the chain of
the caller is frozen and left for that of the closure. -/
def closureProgram : Program where
  name := "closure"
  code := #[.scope 0 1, .fork 7, .pushPc 5, .callPc, .ret, .scope 1 0, .ret, .ret]
  functions := #[]
  lines := #[]
  natives := {}

/-- The branch of `closureProgram` is taken up after the call and both returns. -/
theorem scopes_restored_closureProgram :
    ∃ e b older,
      ending? closureProgram ((course closureProgram (load {} {} .null none) (fun _ => {})
        7).withSignals {}) = some e ∧ e.branches = b :: older ∧
      ∃ k, Pending (course closureProgram (load {} {} .null none) (fun _ => {})) k 7 b older ∧
        ScopesBack (course closureProgram (load {} {} .null none) (fun _ => {})) k 7 :=
  ⟨_, _, _, rfl, rfl, scopes_restored closureProgram {} {} .null none (fun _ => {}) 7 rfl rfl⟩

end Machine
end QueryMachine
