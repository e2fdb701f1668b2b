import QueryMachine.Proofs.PathStarts

/-!
# Paths are brackets

The instructions that open and close paths match like brackets, along every alternative.

* `Nested`: in every state `pathDepth` is the innermost start on the chain of records, and every
  start remembers the next one below it;
* `PathMove`: what a dispatch makes of the chain, as long as no branch is taken up;
* `Line`: the dispatches that a state of the run goes on from. Taking up a branch goes back to the
  line on which the branch was left behind;
* `Within`: between a start and its end, the line is made of steps and of paths that have been
  opened and closed again. `within_course` finds the start of every open path on the line.
-/

namespace QueryMachine

open RewindStack

/-! ## Nested paths -/

/-- The cell of the innermost start on a chain of path records. -/
def innermostStart : List (Nat × PathRecord) → Option Nat
  | [] => none
  | (i, .start _ _) :: _ => some i
  | (_, .step _ _) :: rest => innermostStart rest

namespace Bracketed

variable {chain above rest : List (Nat × PathRecord)} {depth outer : Option Nat} {i : Nat}
  {base : Value}

theorem depth_eq (h : Bracketed chain depth) : depth = innermostStart chain := by
  induction h with
  | empty => rfl
  | start i v h ih => rfl
  | step j component v h ih => exact ih

theorem depth_eq_none_iff (h : Bracketed chain depth) : depth = none ↔ chain = [] := by
  cases h <;> simp

/-- What lies below a start is nested, too. -/
theorem under_start (h : Bracketed (above ++ (i, .start base outer) :: rest) depth) :
    Bracketed rest outer := by
  induction above generalizing depth with
  | nil =>
    cases h with
    | start i v h => exact h
  | cons first above ih =>
    cases h with
    | start j v h => exact ih h
    | step j component v h => exact ih h

end Bracketed

/-- The components of the steps on a chain, oldest first. -/
def componentsOf (steps : List (Nat × PathRecord)) : List Value :=
  (steps.map (·.2)).reverse.filterMap PathRecord.component?

namespace Machine

variable {m m' : Machine} {p : Program} {i : Instruction} {signals : Nat → Signals}

/-- The open paths of a machine are nested. `pathDepth` leads to the innermost one, and from each
of them its start leads to the one around it. -/
structure Nested (m : Machine) : Prop where
  none_iff : m.pathDepth = none ↔ m.paths.chain = []
  tracks_iff : m.tracksPath = true ↔ m.pathDepth ≠ none
  innermost : m.pathDepth = innermostStart m.paths.chain
  outer : ∀ above i base outer rest,
    m.paths.chain = above ++ (i, .start base outer) :: rest → outer = innermostStart rest
  /-- Cutting a path back to its start finds the start. -/
  start : ∀ i, m.pathDepth = some i →
    ∃ base outer paths, (m.paths.setTop (some i)).pop? = some (.start base outer, paths)
  /-- So there are no two ways for the end of a path to run out of records or operands. -/
  underflow : ∀ e, m.closePath = .fail e .stackUnderflow →
    m.pathDepth = none ∨ m.popValue = .error .stackUnderflow

theorem Coherent.nested (h : m.Coherent) : Nested m where
  none_iff := h.brackets.depth_eq_none_iff
  tracks_iff := (tracksPath_iff h).trans (not_congr h.brackets.depth_eq_none_iff.symm)
  innermost := h.brackets.depth_eq
  outer := by
    intro above i base outer rest hchain
    have hbrackets := h.brackets
    rw [hchain] at hbrackets
    exact hbrackets.under_start.depth_eq
  start := by
    intro i hi
    obtain ⟨above, base, outer, paths, -, -, hcut, -⟩ := innermost_path h hi
    exact ⟨base, outer, paths, hcut⟩
  underflow := by
    intro e hclose
    unfold closePath at hclose
    split at hclose
    · rename_i hnone
      exact .inl hnone
    · rename_i start hstart
      split at hclose
      · rename_i fault hp
        rw [(Effect.fail.inj hclose).2] at hp
        exact .inr hp
      · rename_i v popped hp
        split at hclose
        · cases (Effect.fail.inj hclose).2
        · -- the path lies as it was under the operands
          obtain ⟨above, base, outer, paths, -, -, hcut, -⟩ := innermost_path h hstart
          rw [← (OperandsOnly.popValue hp).paths] at hcut
          dsimp only at hclose
          rw [hcut] at hclose
          cases hclose

/-! ## Opening and closing -/

/-- An instruction opens a path at the value `base`. -/
structure PathOpened (p : Program) (m m' : Machine) (i : Nat) (base : Value) : Prop where
  instruction : p.at? m.pc = some .pathBegin
  top : m.stack.top? = some (.value base)
  chain : m'.paths.chain = (i, .start base m.pathDepth) :: m.paths.chain
  depth : m'.pathDepth = some i

/-- The innermost path, which starts at `base`, is closed after the records `steps`. -/
structure PathClosed (m m' : Machine) (i : Nat) (base : Value) (steps : List (Nat × PathRecord)) :
    Prop where
  depth : m.pathDepth = some i
  chain : m.paths.chain = steps ++ (i, .start base m'.pathDepth) :: m'.paths.chain
  onlySteps : ∀ r ∈ steps, ∃ component v, r.2 = .step component v
  answer : ∃ v rest, m.stack.toList = .value v :: rest ∧ m.isReached v = true ∧
    m'.stack.toList = .value (.array (componentsOf steps).toArray) :: rest

theorem pathOpened_openPath (h : m.Coherent) (hat : p.at? m.pc = some .pathBegin)
    (hopen : m.openPath = .next m') : ∃ i base, PathOpened p m m' i base := by
  unfold openPath at hopen
  split at hopen
  · cases hopen
  · rename_i x htop
    cases x with
    | value v =>
      obtain rfl := Effect.next.inj hopen
      exact ⟨m.paths.nextCell, v, hat, htop, chain_push h.paths.toLinked _, rfl⟩
    | closure pc scope => cases hopen
    | entries rest => cases hopen

theorem pathClosed_closePath (h : m.Coherent) (hclose : m.closePath = .next m') :
    ∃ i base steps, PathClosed m m' i base steps := by
  unfold closePath at hclose
  split at hclose
  · cases hclose
  · rename_i start hstart
    obtain ⟨steps, base, outer, paths, hchain, hsteps, hcut, -⟩ := innermost_path h hstart
    split at hclose
    · cases hclose
    · rename_i v popped hp
      have hpopped := (forward_popValue h hp).coherent
      obtain ⟨t, hpop, rfl⟩ := popOperand_eq_ok (popValue_eq_ok hp)
      split at hclose
      · cases hclose
      · rename_i hreached
        have hisReached : isReached { m with stack := t } v = true := by simpa using hreached
        dsimp only at hclose
        rw [hcut] at hclose
        obtain rfl := Effect.next.inj hclose
        obtain ⟨j, -, hstack⟩ := chain_of_pop? h.stack.toLinked hpop
        refine ⟨start, base, steps, hstart, hchain, hsteps, v, t.toList, ?_, hisReached, ?_⟩
        · rw [toList, hstack]
          rfl
        · refine (toList_push hpopped.stack.toLinked _).trans ?_
          rw [since_eq h.paths.toLinked hchain]
          rfl

/-! ## What a dispatch makes of the recorded path -/

/-- The chain of records stays as it is, or goes on by a step, or a path is opened or closed. -/
inductive PathMove (p : Program) (m m' : Machine) : Prop where
  | same (h : m'.paths.chain = m.paths.chain)
  | step (j : Nat) (component v : Value)
      (h : m'.paths.chain = (j, .step component v) :: m.paths.chain)
  | opened (i : Nat) (base : Value) (h : PathOpened p m m' i base)
  | closed (i : Nat) (base : Value) (steps : List (Nat × PathRecord))
      (h : PathClosed m m' i base steps)

theorem pathMove_of_goesOn (h : m.Coherent) (hgo : GoesOn m.paths m'.paths) :
    PathMove p m m' := by
  have hfreeze : m.paths.freeze.chain = m.paths.chain := chainAt_freeze m.paths m.paths.top
  rcases hgo with (heq | heq) | ⟨component, v, heq | heq⟩
  · exact .same (by rw [heq])
  · exact .same (by rw [heq, hfreeze])
  · exact .step _ component v (by rw [heq, chain_push h.paths.toLinked])
  · exact .step _ component v (by rw [heq, chain_push h.paths.freeze.toLinked, hfreeze])

/-- An instruction that opens a path goes on, or leaves the machine as it is. -/
theorem openPath_cases (m : Machine) :
    (∃ m', m.openPath = .next m') ∨ ∃ fault, m.openPath = .fail m fault := by
  unfold openPath
  split
  · exact .inr ⟨_, rfl⟩
  · split
    · exact .inr ⟨_, rfl⟩
    · exact .inl ⟨_, rfl⟩

/-- An instruction that closes a path goes on, or leaves the machine as it is. -/
theorem closePath_cases (m : Machine) :
    (∃ m', m.closePath = .next m') ∨ ∃ fault, m.closePath = .fail m fault := by
  unfold closePath
  split
  · exact .inr ⟨_, rfl⟩
  · split
    · exact .inr ⟨_, rfl⟩
    · split
      · exact .inr ⟨_, rfl⟩
      · dsimp only
        split
        · exact .inl ⟨_, rfl⟩
        · exact .inr ⟨_, rfl⟩

theorem pathMove_execute (h : m.Coherent) (hat : p.at? m.pc = some i) :
    PathMove p m (m.execute p i).machine := by
  cases i with
  | scope => exact .same rfl
  | ret => exact .same (congrArg (·.chain) (paths_leaveScope m))
  | pathBegin =>
    show PathMove p m m.openPath.machine
    rcases openPath_cases m with ⟨m', hopen⟩ | ⟨fault, hopen⟩
    · obtain ⟨i, base, hopened⟩ := pathOpened_openPath h hat hopen
      rw [hopen]
      exact .opened i base hopened
    · rw [hopen]
      exact .same rfl
  | pathEnd =>
    show PathMove p m m.closePath.machine
    rcases closePath_cases m with ⟨m', hclose⟩ | ⟨fault, hclose⟩
    · obtain ⟨i, base, steps, hclosed⟩ := pathClosed_closePath h hclose
      rw [hclose]
      exact .closed i base steps hclosed
    · rw [hclose]
      exact .same rfl
  | _ => exact pathMove_of_goesOn h (inPlace_execute p rfl).paths

/-- The move of a machine that differs only where paths do not look. -/
theorem PathMove.congr {n n' : Machine} (h : PathMove p m m') (hpc : n.pc = m.pc)
    (hstack : n.stack = m.stack) (hpaths : n.paths = m.paths) (hdepth : n.pathDepth = m.pathDepth)
    (hstack' : n'.stack = m'.stack) (hpaths' : n'.paths = m'.paths)
    (hdepth' : n'.pathDepth = m'.pathDepth) : PathMove p n n' := by
  cases h with
  | same h => exact .same (by rw [hpaths, hpaths', h])
  | step j component v h => exact .step j component v (by rw [hpaths, hpaths', h])
  | opened i base h =>
    refine .opened i base ⟨?_, ?_, ?_, ?_⟩
    · rw [hpc, h.instruction]
    · rw [hstack, h.top]
    · rw [hpaths, hpaths', hdepth, h.chain]
    · rw [hdepth', h.depth]
  | closed i base steps h =>
    refine .closed i base steps ⟨?_, ?_, h.onlySteps, ?_⟩
    · rw [hdepth, h.depth]
    · rw [hpaths, hpaths', hdepth', h.chain]
    · have hreached : n.isReached = m.isReached := by
        funext v
        unfold isReached reached?
        rw [hpaths]
      rw [hstack, hstack', hreached]
      exact h.answer

/-- A branch is taken up. -/
def GoesBack (p : Program) (m : Machine) (b : BranchPoint) (older : List BranchPoint) : Prop :=
  ∃ e, ending? p m = some e ∧ e.branches = b :: older

theorem pathMove_dispatch (h : m.Coherent) (hon : ∀ b older, ¬ GoesBack p m b older) :
    PathMove p m (dispatch p m).machine := by
  rcases dispatch_cases p m with hover | ⟨e, he, hunwind⟩ | ⟨i, pc, resuming, -, hat, hnext⟩
  · rw [hover]
    exact .same rfl
  · -- without a branch to take up the run is over
    cases hb : e.branches with
    | nil =>
      rw [hunwind, unwind_nil hb]
      exact .same (congrArg (·.chain) (ending?_untouched he).paths)
    | cons b older => exact absurd ⟨e, he, hb⟩ (hon b older)
  · rw [hnext]
    rcases step_eq m p i with ⟨ticks, hstep⟩ | ⟨reason, -, hstep⟩
    · have hmove := pathMove_execute (m := { m with ticks }) { h with } hat
      rw [hstep]
      exact hmove.congr rfl rfl rfl rfl rfl rfl rfl
    · rw [hstep]
      exact .same rfl

/-! ## Lines -/

/-- The dispatches that the machine after `n` dispatches goes on from, the latest first. Taking up a
branch goes back to the line on which it was left behind. -/
inductive Line (p : Program) (m : Machine) (signals : Nat → Signals) : Nat → List Nat → Prop where
  | start : Line p m signals 0 []
  | on {n : Nat} {line : List Nat} (h : Line p m signals n line)
      (hon : ∀ b older,
        ¬ GoesBack p ((course p m signals n).withSignals (signals n)) b older) :
      Line p m signals (n + 1) (n :: line)
  | back {n k : Nat} {line : List Nat} {b : BranchPoint} {older : List BranchPoint}
      (hback : GoesBack p ((course p m signals n).withSignals (signals n)) b older)
      (hpending : Pending (course p m signals) k n b older) (h : Line p m signals k line) :
      Line p m signals (n + 1) line

/-- Every state of a run has a line. -/
theorem exists_line (hstart : m.Coherent) (hnone : m.branches = []) (p : Program)
    (signals : Nat → Signals) (n : Nat) : ∃ line, Line p m signals n line := by
  -- a branch was left behind earlier, so the line of that moment is known
  induction n using Nat.strongRecOn with
  | ind n ih =>
    cases n with
    | zero => exact ⟨[], .start⟩
    | succ n =>
      by_cases hon : ∀ b older,
          ¬ GoesBack p ((course p m signals n).withSignals (signals n)) b older
      · obtain ⟨line, hline⟩ := ih n (Nat.lt_succ_self n)
        exact ⟨n :: line, .on hline hon⟩
      · simp only [not_forall, not_not] at hon
        obtain ⟨b, older, e, hend, hb⟩ := hon
        obtain ⟨k, hpending, -⟩ := restored_course hstart hnone hend hb
        obtain ⟨line, hline⟩ := ih k (Nat.lt_succ_of_lt hpending.lt)
        exact ⟨line, .back ⟨e, hend, hb⟩ hpending hline⟩

theorem Line.lt {n : Nat} {line : List Nat} (h : Line p m signals n line) :
    ∀ t ∈ line, t < n := by
  induction h with
  | start =>
    intro t ht
    cases ht
  | on h hon ih =>
    intro t ht
    rcases List.mem_cons.mp ht with rfl | ht
    · exact Nat.lt_succ_self t
    · exact Nat.lt_succ_of_lt (ih t ht)
  | back hback hpending h ih =>
    intro t ht
    have hlt := hpending.lt
    have htk := ih t ht
    omega

/-- A branch that is pending was left behind in one dispatch only. -/
theorem Pending.unique {run : Nat → Machine} {k k' n : Nat} {b : BranchPoint}
    {older : List BranchPoint} (h : Pending run k n b older) (h' : Pending run k' n b older) :
    k = k' := by
  have hle : ∀ {k k' : Nat}, Pending run k n b older → Pending run k' n b older → ¬ k < k' := by
    intro k k' h h' hlt
    have hsuffix := h.since k' hlt (Nat.le_of_lt h'.lt)
    rw [h'.before] at hsuffix
    have hlength := hsuffix.length_le
    rw [List.length_cons] at hlength
    omega
  exact Nat.le_antisymm (Nat.le_of_not_lt (hle h' h)) (Nat.le_of_not_lt (hle h h'))

/-- Taking up a branch brings the chain of records back. -/
theorem chain_back (hstart : m.Coherent) (hnone : m.branches = []) {n k : Nat} {b : BranchPoint}
    {older : List BranchPoint}
    (hback : GoesBack p ((course p m signals n).withSignals (signals n)) b older)
    (hpending : Pending (course p m signals) k n b older) :
    (course p m signals (n + 1)).paths.chain = (course p m signals k).paths.chain := by
  obtain ⟨e, hend, hb⟩ := hback
  obtain ⟨k', hpending', hrestored, -⟩ := restored_course hstart hnone hend hb
  rw [hpending.unique hpending']
  exact hrestored.paths

/-! ## Matching brackets -/

/-- What the dispatches of a line leave in the path that was open before them, the latest first:
steps, and nothing of the paths that they have opened and closed again. -/
inductive Within (p : Program) (run : Nat → Machine) : List Nat → List (Nat × PathRecord) → Prop
    where
  | nil : Within p run [] []
  | same {t : Nat} {line : List Nat} {steps : List (Nat × PathRecord)} (h : Within p run line steps)
      (hsame : (run (t + 1)).paths.chain = (run t).paths.chain) : Within p run (t :: line) steps
  | step {t j : Nat} {component v : Value} {line : List Nat} {steps : List (Nat × PathRecord)}
      (h : Within p run line steps)
      (hstep : (run (t + 1)).paths.chain = (j, .step component v) :: (run t).paths.chain) :
      Within p run (t :: line) ((j, .step component v) :: steps)
  | path {t k i : Nat} {base : Value} {inner line : List Nat}
      {closed steps : List (Nat × PathRecord)} (h : Within p run line steps)
      (hopened : PathOpened p (run k) (run (k + 1)) i base) (hinner : Within p run inner closed)
      (hclosed : PathClosed (run t) (run (t + 1)) i base closed) :
      Within p run (t :: (inner ++ k :: line)) steps

/-- The dispatch `k` on the line opened the path whose start lies in the cell `i` with the chain
`rest` below it, and the dispatches `between` have left `steps` in it. -/
structure OpenedBy (p : Program) (m : Machine) (signals : Nat → Signals) (line : List Nat)
    (steps : List (Nat × PathRecord)) (i : Nat) (base : Value) (rest : List (Nat × PathRecord))
    (k : Nat) (between before : List Nat) : Prop where
  line : line = between ++ k :: before
  before : Line p m signals k before
  opened : PathOpened p (course p m signals k) (course p m signals (k + 1)) i base
  rest : (course p m signals k).paths.chain = rest
  within : Within p (course p m signals) between steps

/-- The start of every open path is found on the line. -/
theorem within_course (hstart : m.Coherent) (hnone : m.branches = []) (hpaths : m.paths.chain = [])
    (n : Nat) :
    ∀ line, Line p m signals n line → ∀ steps i base outer rest,
      (course p m signals n).paths.chain = steps ++ (i, .start base outer) :: rest →
      (∀ r ∈ steps, ∃ component v, r.2 = .step component v) →
      ∃ k between before, OpenedBy p m signals line steps i base rest k between before := by
  -- a path that has been closed leads from its end to its start, which may lie far back
  induction n using Nat.strongRecOn with
  | ind n ih =>
    intro line hline steps i base outer rest hchain hsteps
    cases hline with
    | start =>
      rw [course, hpaths] at hchain
      simp at hchain
    | back hback hpending hline =>
      rw [chain_back hstart hnone hback hpending] at hchain
      exact ih _ (Nat.lt_succ_of_lt hpending.lt) line hline steps i base outer rest hchain hsteps
    | @on n line hline hon =>
      have hcoherent := (coherent_course hstart p signals n).withSignals (signals n)
      have hmove : PathMove p (course p m signals n) (course p m signals (n + 1)) :=
        (pathMove_dispatch hcoherent hon).congr rfl rfl rfl rfl rfl rfl rfl
      cases hmove with
      | same hsame =>
        rw [hsame] at hchain
        obtain ⟨k, between, before, h⟩ :=
          ih n (Nat.lt_succ_self n) line hline steps i base outer rest hchain hsteps
        exact ⟨k, n :: between, before, { h with
          line := by rw [h.line, List.cons_append]
          within := .same h.within hsame }⟩
      | step j component v hstep =>
        -- the step lies above the start
        rw [hstep] at hchain
        cases steps with
        | nil => cases (List.cons.inj hchain).1
        | cons first steps =>
          obtain ⟨rfl, hbelow⟩ := List.cons.inj hchain
          obtain ⟨k, between, before, h⟩ := ih n (Nat.lt_succ_self n) line hline steps i base outer
            rest hbelow fun r hr => hsteps r (List.mem_cons_of_mem _ hr)
          exact ⟨k, n :: between, before, { h with
            line := by rw [h.line, List.cons_append]
            within := .step h.within hstep }⟩
      | opened i' base' hopened =>
        -- the start has just been recorded
        rw [hopened.chain] at hchain
        cases steps with
        | nil =>
          obtain ⟨hfirst, hrest⟩ := List.cons.inj hchain
          simp only [Prod.mk.injEq, PathRecord.start.injEq] at hfirst
          obtain ⟨rfl, rfl, -⟩ := hfirst
          exact ⟨n, [], line, rfl, hline, hopened, hrest, .nil⟩
        | cons first steps =>
          obtain ⟨component, v, hfirst⟩ := hsteps first List.mem_cons_self
          rw [← (List.cons.inj hchain).1] at hfirst
          cases hfirst
      | closed i' base' inner hclosed =>
        -- first back to the start of the path that is closed, and from there to the open one
        obtain ⟨k', between', before', h'⟩ := ih n (Nat.lt_succ_self n) line hline inner i' base' _
          _ hclosed.chain hclosed.onlySteps
        have hlt : k' < n := by
          apply hline.lt k'
          rw [h'.line]
          exact List.mem_append_right _ List.mem_cons_self
        rw [← h'.rest] at hchain
        obtain ⟨k, between, before, h⟩ := ih k' (Nat.lt_succ_of_lt hlt) before' h'.before steps i
          base outer rest hchain hsteps
        refine ⟨k, n :: (between' ++ k' :: between), before, { h with
          line := ?_
          within := .path h.within h'.opened h'.within hclosed }⟩
        rw [h'.line, h.line, List.cons_append, List.append_assoc, List.cons_append]

/-- The start that belongs to the end of a path: the path was opened in dispatch `k`, `between` has
left `steps` in it, their components are the answer, and the recorded path is what it was before it
was opened. -/
structure Matched (p : Program) (m : Machine) (signals : Nat → Signals) (n k : Nat)
    (between before : List Nat) (i : Nat) (base : Value) (steps : List (Nat × PathRecord)) :
    Prop where
  line : Line p m signals n (between ++ k :: before)
  before : Line p m signals k before
  opened : PathOpened p (course p m signals k) (course p m signals (k + 1)) i base
  within : Within p (course p m signals) between steps
  closed : PathClosed (course p m signals n) (course p m signals (n + 1)) i base steps
  chain : (course p m signals (n + 1)).paths.chain = (course p m signals k).paths.chain
  depth : (course p m signals (n + 1)).pathDepth = (course p m signals k).pathDepth

/-- Dispatch `n` of the run carries out the end of a path, and goes on. -/
def ClosesPath (p : Program) (m : Machine) (signals : Nat → Signals) (n : Nat) : Prop :=
  (course p m signals n).finished = false ∧
    p.at? (course p m signals n).pc = some .pathEnd ∧
    ∃ m', ((course p m signals n).withSignals (signals n)).step p .pathEnd = .next m'

/-- In every state of a run the open paths are nested, and an instruction that closes a path matches
the one that opened it. -/
theorem brackets_matched (p : Program) (idle : Machine) (settings : Settings) (input : Value)
    (interrupt : Option Interrupt) (signals : Nat → Signals) (n : Nat) :
    Nested (course p (idle.load settings input interrupt) signals n) ∧
      (ClosesPath p (idle.load settings input interrupt) signals n →
        ∃ k between before i base steps,
          Matched p (idle.load settings input interrupt) signals n k between before i base
            steps) := by
  have hstart := coherent_load idle settings input interrupt
  have hempty : (idle.load settings input interrupt).paths.chain = [] := rfl
  have hnone : (idle.load settings input interrupt).branches = [] := rfl
  generalize idle.load settings input interrupt = m at *
  have hcoherent := coherent_course hstart p signals n
  refine ⟨hcoherent.nested, ?_⟩
  rintro ⟨hrunning, hat, m', hstep⟩
  obtain ⟨ticks, hclose⟩ := execute_of_step hstep
  obtain ⟨i, base, steps, hclosed⟩ := pathClosed_closePath
    (m := { (course p m signals n).withSignals (signals n) with ticks }) { hcoherent with } hclose
  have hnext : course p m signals (n + 1) = { m' with pc := m'.pc + 1 } := by
    rw [course, dispatch_at (m := (course p m signals n).withSignals (signals n)) hrunning hat, hstep]
    rfl
  have hclosed' : PathClosed (course p m signals n) (course p m signals (n + 1)) i base steps := by
    rw [hnext]
    exact { hclosed with }
  obtain ⟨line, hline⟩ := exists_line hstart hnone p signals n
  obtain ⟨k, between, before, h⟩ := within_course hstart hnone hempty n line hline steps i base _ _
    hclosed'.chain hclosed'.onlySteps
  have hchain := h.rest
  refine ⟨k, between, before, i, base, steps, h.line ▸ hline, h.before, h.opened, h.within,
    hclosed', hchain.symm, ?_⟩
  -- the depth is what the chain says
  have hafter := (coherent_course hstart p signals (n + 1)).brackets.depth_eq
  have hbefore := (coherent_course hstart p signals k).brackets.depth_eq
  rw [hafter, hbefore, hchain]

/-- A path inside a path, and an iteration in the inner one. -/
def nestingProgram : Program where
  name := "nesting"
  code := #[.scope 0 0, .pathBegin, .each, .dup, .pathBegin, .each, .pathEnd, .pop, .pathEnd, .ret]
  functions := #[]
  lines := #[]
  natives := {}

/-- The machine that runs `nestingProgram` over two items in an array. -/
def nestingMachine : Machine :=
  load {} {} (.array #[.array #[.null, .null]]) none

/-- Both paths are closed again after the run has gone back into them for the second item. -/
theorem brackets_matched_nestingProgram :
    ClosesPath nestingProgram nestingMachine (fun _ => {}) 14 ∧
      ∃ k between before i base steps,
        Matched nestingProgram nestingMachine (fun _ => {}) 14 k between before i base steps := by
  have hgoes : (match ((course nestingProgram nestingMachine (fun _ => {}) 14).withSignals {}).step
        nestingProgram .pathEnd with
      | .next _ => true
      | _ => false) = true := by decide +kernel
  have hpc : (course nestingProgram nestingMachine (fun _ => {}) 14).pc = 8 := by decide +kernel
  have hcloses : ClosesPath nestingProgram nestingMachine (fun _ => {}) 14 := by
    refine ⟨by decide +kernel, by rw [hpc]; rfl, ?_⟩
    cases hstep : ((course nestingProgram nestingMachine (fun _ => {}) 14).withSignals {}).step
      nestingProgram .pathEnd with
    | next m' => exact ⟨m', rfl⟩
    | _ =>
      rw [hstep] at hgoes
      cases hgoes
  exact ⟨hcloses, (brackets_matched nestingProgram {} {} _ none (fun _ => {}) 14).2 hcloses⟩

end Machine
end QueryMachine
