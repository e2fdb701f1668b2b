import QueryMachine.Proofs.AlikeInstructions
import QueryMachine.Proofs.Items
import QueryMachine.Proofs.Resumption

/-!
# Handlers are free when nothing fails

A handler leaves a branch behind that is only there for faults. Where nothing fails, taking it up
ends the continuation at once, and the run turns to the next older branch: without the handler, it
turns there directly.

* `Mirrors`: a machine of the program and one of the program without handlers stand at the same
  place and look alike;
* `exists_goesAlike`: after a dispatch of the second machine and some dispatches of the first one,
  they do so again, or both have given the same item. Getting past the branches of handlers is an
  induction on the pending branches;
* `gives_mirrored`, `mirrored_gives`: so a pull of one machine gives an item if and only if a pull
  of the other one does;
* `handlers_free`: so both runs give the same items.
-/

namespace QueryMachine

open RewindStack

/-! ## The program without handlers -/

theorem Instruction.isScope_withoutHandler (i : Instruction) :
    i.withoutHandler.isScope = i.isScope := by
  cases i <;> rfl

theorem Program.CallsScopes.withoutHandlers {p : Program} (h : p.CallsScopes) :
    p.withoutHandlers.CallsScopes := by
  intro i hi
  obtain ⟨j, hj, rfl⟩ := Array.mem_map.mp hi
  have hcalls := h j hj
  cases j with
  | call target =>
    show (p.withoutHandlers.at? target).any (·.isScope) = true
    rw [Program.at?_withoutHandlers, Option.any_map]
    simp only [Instruction.isScope_withoutHandler]
    exact hcalls
  | callPc => cases hcalls
  | _ => rfl

/-- Whether the effect is a failure. -/
def Effect.isFailure : Effect → Bool
  | .fail .. => true
  | _ => false

namespace Machine

variable {p : Program} {m m' a a' b b' e e' : Machine} {i : Instruction} {item : Item}
  {signals : Nat → Signals}

/-! ## Runs in which nothing fails -/

/-- Whether the instruction fails that the machine dispatches. -/
def raises (p : Program) (m : Machine) : Bool :=
  !m.finished && (p.at? m.pc).any fun i => (m.step p i).isFailure

/-- No instruction fails before the next item. -/
def NeverFails (p : Program) (m : Machine) : Prop :=
  ∀ n m', pull p m n = .running m' → m'.raises p = false

/-- No instruction of the run fails, however often the host pulls. -/
structure Unfailing (p : Program) (m : Machine) (signals : Nat → Signals) : Prop where
  first : NeverFails p (m.withSignals (signals 0))
  next : ∀ k m' item, Pulled p m signals k m' item →
    NeverFails p (m'.withSignals (signals (k + 1)))

theorem NeverFails.rest {n : Nat} (h : NeverFails p m) (hpaused : pull p m n = .running m') :
    NeverFails p m' :=
  fun k e hk => h (n + k) e ((pull_add hpaused k).trans hk)

/-- As long as there is no item, only so many dispatches count. -/
theorem neverFails_of_done {n : Nat} (hdone : pull p m n = .done m' item)
    (h : ∀ k < n, (pull p m k).machine.raises p = false) : NeverFails p m := by
  intro k e hk
  rcases Nat.lt_or_ge k n with hlt | hle
  · have hraises := h k hlt
    rw [hk] at hraises
    exact hraises
  · rw [pull_of_done hdone hle] at hk
    cases hk

theorem neverFails_of_finished (h : m.finished = true) : NeverFails p m := by
  have hdone : pull p m 1 = .done m none := by rw [pull, dispatch_finished h]
  refine neverFails_of_done hdone fun k hk => ?_
  obtain rfl : k = 0 := by omega
  show (!m.finished && _) = false
  rw [h]
  rfl

/-! ## Runs without an interrupt -/

/-- What holds of every machine of a run without an interrupt, in a program that calls scopes: its
activations lie in the order of calls, and every branch resumes at an instruction that can be
resumed at. -/
structure Regular (p : Program) (m : Machine) : Prop where
  coherent : m.Coherent
  interrupt : m.interrupt = none
  orderly : m.plain.Orderly p
  branches : ∀ b ∈ m.branches, ∃ i, p.at? b.pc = some i ∧ i.isResumePoint = true

/-- A branch that is pending after a dispatch was pending before, or is that of a resume point. -/
theorem Move.branch_cases (h : Move p m m') {b : BranchPoint} (hb : b ∈ m'.branches) :
    b ∈ m.branches ∨ ∃ i, p.at? b.pc = some i ∧ i.isResumePoint = true := by
  cases h with
  | forward h =>
    rw [h.branches] at hb
    exact .inl hb
  | branch hat hkind h =>
    rw [h.branches] at hb
    cases hb with
    | head =>
      rw [← h.pc] at hat
      exact .inr ⟨_, hat, isResumePoint_of_branchKind? hkind⟩
    | tail _ hb => exact .inl hb
  | @takeUp e taken older hend h hbranches =>
    have hmem : b ∈ e.branches := by
      rw [hbranches]
      exact List.mem_cons_of_mem taken hb
    rw [h.branches] at hmem
    exact .inl hmem
  | ended h hnil hf hi =>
    rw [hnil] at hb
    cases hb

theorem regular_dispatch (h : Regular p m) (hcalls : p.CallsScopes) (hrunning : m.finished = false)
    (hnext : (dispatch p m).machine = m') (hgoing : m'.finished = false) : Regular p m' := by
  have hmove := move_dispatch h.coherent p
  have horderly := PlainMachine.orderly_dispatch h.orderly h.coherent.rooted hcalls hrunning
  rw [← plain_dispatch h.coherent, machine_plain, hnext] at horderly
  rw [hnext] at hmove
  refine ⟨hmove.coherent, hmove.interrupt.trans h.interrupt, ?_, fun b hb => ?_⟩
  · refine horderly.resolve_left fun hover => ?_
    have hfinished : m'.finished = true := hover
    rw [hgoing] at hfinished
    cases hfinished
  · rcases hmove.branch_cases hb with hold | hnew
    · exact h.branches b hold
    · exact hnew

/-! ## Machines that mirror each other -/

/-- The machine `a` of the program and the machine `b` of the program without handlers stand at the
same place and look alike. It is not a handler that `a` resumes at. -/
structure Mirrors (p : Program) (a b : Machine) : Prop where
  alike : PlainMachine.Alike p a.plain b.plain
  regular : Regular p a
  regular' : Regular p.withoutHandlers b
  resumes : a.resuming = true →
    ∃ i, p.at? a.pc = some i ∧ i.isResumePoint = true ∧ i.isHandler = false

/-- The machines mirror each other, or both runs are over. -/
inductive Mirrored (p : Program) (a b : Machine) : Prop where
  | going (h : Mirrors p a b)
  | ended (h : a.finished = true) (h' : b.finished = true)

/-- Both runs go on alike, perhaps after the same item. -/
inductive GoesAlike (p : Program) : Progress → Progress → Prop where
  | running {a b : Machine} (h : Mirrors p a b) : GoesAlike p (.running a) (.running b)
  | done {a b : Machine} (h : Mirrored p a b) (item : Item) :
      GoesAlike p (.done a item) (.done b item)

theorem Mirrors.admits (h : Mirrors p a b) (hat : p.at? a.pc = some i) : a.Admits i := by
  cases hset : a.resuming with
  | false => exact .inl ⟨hset, h.alike.sound⟩
  | true =>
    obtain ⟨j, hj, hpoint, -⟩ := h.resumes hset
    rw [Option.some.inj (hat.symm.trans hj)]
    exact .inr ⟨hset, hpoint⟩

section dispatch

variable (hcalls : p.CallsScopes)

include hcalls

/-- Where both dispatches go on to machines that look alike, these mirror each other. -/
theorem Mirrors.goOn (h : Mirrors p a b) (ha : (dispatch p a).machine = a')
    (hb : (dispatch p.withoutHandlers b).machine = b')
    (halike : PlainMachine.Alike p a'.plain b'.plain)
    (hresumes : a'.resuming = true →
      ∃ i, p.at? a'.pc = some i ∧ i.isResumePoint = true ∧ i.isHandler = false) :
    Mirrors p a' b' :=
  ⟨halike, regular_dispatch h.regular hcalls h.alike.running ha halike.running,
    regular_dispatch h.regular' hcalls.withoutHandlers h.alike.running' hb halike.running', hresumes⟩

/-! ## Getting past the branches of handlers -/

omit hcalls in
/-- Without a fault, the branch of a handler is exhausted at once. -/
theorem ending?_handler (h : TakesUp m none) (hat : p.at? m.pc = some i)
    (hi : i.isHandler = true) : ∃ ticks, ending? p m = some { m with ticks } := by
  obtain ⟨ticks, hstep⟩ := step_eq_execute h.interrupt p i
  refine ⟨ticks, ending?_of_stop h.running hat ?_⟩
  rw [hstep]
  cases i with
  | forkOpt target => simp [execute, forkOpt, h.resuming, h.fault]
  | forkLabel label => simp [execute, forkLabel, isLeaving, h.resuming, h.fault]
  | _ => cases hi

/-- Where both continuations end, both runs turn to the same branch, the first one after it has
taken up those of handlers; or both are over. -/
theorem exists_goesAlike_of_ending (ha : Regular p a) (hb : Regular p.withoutHandlers b)
    (hend : ending? p a = some e) (hend' : ending? p.withoutHandlers b = some e')
    (h : PlainMachine.AlikeBehind p e.plain e'.plain) :
    ∃ n, GoesAlike p ((dispatch p a).pull p n) (dispatch p.withoutHandlers b) := by
  -- the induction is on the branches that the first machine can turn to
  induction hbranches : e.branches generalizing a e with
  | nil =>
    have hplain : e.plain.branches = [] := by
      show e.branches.map _ = []
      rw [hbranches]
      rfl
    have hnil : e'.branches = [] := List.map_eq_nil_iff.mp (h.branches_nil hplain)
    have hsound : e.fault = none := h.sound
    have hsound' : e'.fault = none := h.sound'
    refine ⟨0, ?_⟩
    rw [dispatch_of_ending? hend, dispatch_of_ending? hend', unwind_nil hbranches, unwind_nil hnil,
      hsound, hsound']
    exact .done (.ended rfl rfl) none
  | cons branch older ih =>
    have hplain : e.plain.branches =
        branch.plain e.stack e.paths :: older.map (·.plain e.stack e.paths) := by
      show e.branches.map _ = _
      rw [hbranches]
      rfl
    have htaken : dispatch p a = .running ({ e with branches := older }.rewind branch) :=
      (dispatch_of_ending? hend).trans (unwind_cons hbranches)
    have hregular : Regular p ({ e with branches := older }.rewind branch) :=
      regular_dispatch ha hcalls (running_of_ending? hend) (congrArg _ htaken) h.running
    obtain ⟨i, hat, hpoint⟩ : ∃ i, p.at? branch.pc = some i ∧ i.isResumePoint = true := by
      apply ha.branches
      rcases ending?_eq_some ha.coherent hend with hforward | ⟨hnil, -⟩
      · rw [← hforward.branches, hbranches]
        exact List.mem_cons_self
      · rw [hbranches] at hnil
        cases hnil
    have hhandles : p.handlesAt branch.pc = i.isHandler := by
      rw [Program.handlesAt, hat]
      rfl
    rw [htaken]
    cases hhandler : i.isHandler with
    | true =>
      -- the branch of a handler leads nowhere, and the older ones are left
      have hbehind := h.rewindHandler hplain (hhandles.trans hhandler)
      rw [← plain_rewind] at hbehind
      obtain ⟨ticks, hstop⟩ := ending?_handler (i := i)
        ⟨hregular.interrupt, h.running, rfl, h.sound⟩ hat hhandler
      obtain ⟨n, hn⟩ := ih hregular hstop { hbehind with } rfl
      refine ⟨n + 1, ?_⟩
      rw [Progress.pull, pull_succ]
      exact hn
    | false =>
      obtain ⟨branch', older', hplain', halike⟩ := h.rewind hplain (hhandles.trans hhandler)
      obtain ⟨taken, rest, hbranches', rfl, rfl⟩ := List.map_eq_cons_iff.mp hplain'
      rw [← plain_rewind, ← plain_rewind] at halike
      have htaken' : dispatch p.withoutHandlers b =
          .running ({ e' with branches := rest }.rewind taken) :=
        (dispatch_of_ending? hend').trans (unwind_cons hbranches')
      have hregular' : Regular p.withoutHandlers ({ e' with branches := rest }.rewind taken) :=
        regular_dispatch hb hcalls.withoutHandlers (running_of_ending? hend')
          (congrArg _ htaken') h.running'
      refine ⟨0, ?_⟩
      rw [htaken']
      exact .running ⟨halike, hregular, hregular', fun _ => ⟨i, hat, hpoint, hhandler⟩⟩

/-! ## One dispatch -/

/-- The effects look alike, and none of them is a failure. -/
inductive Paired (p : Program) : Effect → Effect → Prop where
  | next {e e' : Machine} (h : PlainMachine.Alike p e.plain e'.plain) :
      Paired p (.next e) (.next e')
  | jump {e e' : Machine} (h : PlainMachine.Alike p e.plain e'.plain) (target : Nat) :
      Paired p (.jump e target) (.jump e' target)
  | stop {e e' : Machine} (h : PlainMachine.Alike p e.plain e'.plain) :
      Paired p (.stop e) (.stop e')
  | yield {e e' : Machine} (h : PlainMachine.Alike p e.plain e'.plain) (v : Value) :
      Paired p (.yield e v) (.yield e' v)

omit hcalls in
theorem paired_of_plain {effect effect' : Effect} (hsound : ∀ e fault, effect ≠ .fail e fault)
    (h : PlainMachine.EffectAlike p effect.plain effect'.plain) : Paired p effect effect' := by
  cases effect with
  | next e =>
    cases effect' with
    | next e' =>
      cases h with
      | next h => exact .next h
    | _ => cases h
  | jump e target =>
    cases effect' with
    | jump e' target' =>
      cases h with
      | jump h => exact .jump h target
    | _ => cases h
  | stop e =>
    cases effect' with
    | stop e' =>
      cases h with
      | stop h => exact .stop h
    | _ => cases h
  | yield e v =>
    cases effect' with
    | yield e' v' =>
      cases h with
      | yield h => exact .yield h v
    | _ => cases h
  | fail e fault => exact absurd rfl (hsound e fault)

omit hcalls in
/-- A handler that is met going forward only leaves its branch behind. -/
theorem step_handler (hinterrupt : m.interrupt = none) (hforward : m.resuming = false)
    (hi : i.isHandler = true) :
    ∃ ticks kind, m.step p i = .next (pushBranch { m with ticks } kind) := by
  obtain ⟨ticks, hstep⟩ := step_eq_execute hinterrupt p i
  rw [hstep]
  cases i with
  | forkOpt target => exact ⟨ticks, .forkOpt, by simp [execute, forkOpt, hforward]⟩
  | forkLabel label => exact ⟨ticks, .forkLabel, by simp [execute, forkLabel, hforward]⟩
  | _ => cases hi

/-- Where the program has a handler, the other one does nothing. -/
theorem Mirrors.goesAlike_handler (h : Mirrors p a b) (hat : p.at? a.pc = some i)
    (hat' : p.withoutHandlers.at? b.pc = some .nop) (hi : i.isHandler = true) :
    GoesAlike p (dispatch p a) (dispatch p.withoutHandlers b) := by
  have hforward : a.resuming = false := by
    cases hset : a.resuming with
    | false => rfl
    | true =>
      obtain ⟨j, hj, -, hother⟩ := h.resumes hset
      rw [Option.some.inj (hj.symm.trans hat), hi] at hother
      cases hother
  obtain ⟨ticks, kind, hstep⟩ := step_handler (p := p) h.regular.interrupt hforward hi
  obtain ⟨ticks', hstep'⟩ := step_eq_execute h.regular'.interrupt p.withoutHandlers .nop
  have hd := dispatch_at h.alike.running hat
  have hd' := dispatch_at h.alike.running' hat'
  rw [hstep] at hd
  rw [hstep'] at hd'
  have hhandler : p.handlesAt a.plain.pc = true := by
    show (p.at? a.pc).any _ = true
    rw [hat]
    exact hi
  have halike := h.alike.pushHandler kind hhandler
  rw [← plain_pushBranch] at halike
  rw [hd, hd']
  refine .running (h.goOn hcalls (congrArg _ hd) (congrArg _ hd') ?_ fun hset => ?_)
  · exact { halike with pc := congrArg (· + 1) halike.pc }
  · rw [hforward] at hset
    cases hset

/-- Any other instruction does the same to both machines. -/
theorem Mirrors.paired (h : Mirrors p a b) (hsafe : a.raises p = false) (hat : p.at? a.pc = some i)
    (hi : i.isHandler = false) : Paired p (a.step p i) (b.step p.withoutHandlers i) := by
  have hne : i ≠ .callPc := by
    rintro rfl
    cases hcalls.callsScope hat
  obtain ⟨ticks, hstep⟩ := step_eq_execute h.regular.interrupt p i
  obtain ⟨ticks', hstep'⟩ := step_eq_execute h.regular'.interrupt p.withoutHandlers i
  have hcoherent : Coherent { a with ticks } := { h.regular.coherent with }
  have hcoherent' : Coherent { b with ticks := ticks' } := { h.regular'.coherent with }
  have hcounted : PlainMachine.Alike p (plain { a with ticks }) (plain { b with ticks := ticks' }) :=
    { h.alike with }
  have heffect := PlainMachine.alike_execute hcounted { h.regular.orderly with }
    { h.regular'.orderly with } hcoherent.rooted hcoherent'.rooted hat hi hne
  rw [← plain_execute hcoherent, ← plain_execute hcoherent', ← hstep, ← hstep'] at heffect
  refine paired_of_plain (fun e fault hfail => ?_) heffect
  have hrunning : a.finished = false := h.alike.running
  rw [raises, hrunning, hat, Option.any_some, hfail] at hsafe
  cases hsafe

/-- After a dispatch of the machine without handlers, and enough dispatches of the other one, both
mirror each other again. -/
theorem exists_goesAlike (h : Mirrors p a b) (hsafe : a.raises p = false) :
    ∃ n, GoesAlike p ((dispatch p a).pull p n) (dispatch p.withoutHandlers b) := by
  have hpc : b.pc = a.pc := h.alike.pc
  have hfound : p.withoutHandlers.at? b.pc = (p.at? a.pc).map (·.withoutHandler) := by
    rw [Program.at?_withoutHandlers, hpc]
  cases hat : p.at? a.pc with
  | none =>
    rw [hat] at hfound
    exact exists_goesAlike_of_ending hcalls h.regular h.regular'
      (ending?_outside h.alike.running hat) (ending?_outside h.alike.running' hfound)
      h.alike.toAlikeBehind
  | some i =>
    rw [hat, Option.map_some] at hfound
    cases hi : i.isHandler with
    | true =>
      rw [Instruction.withoutHandler_eq_nop hi] at hfound
      refine ⟨0, ?_⟩
      rw [Progress.pull_zero]
      exact h.goesAlike_handler hcalls hat hfound hi
    | false =>
      rw [Instruction.withoutHandler_eq hi] at hfound
      have hpaired := h.paired hcalls hsafe hat hi
      have hforward := goesForward_step (p := p) (h.admits hat)
      have hd := dispatch_at h.alike.running hat
      have hd' := dispatch_at h.alike.running' hfound
      generalize hstep : a.step p i = effect at hpaired hd hforward
      generalize hstep' : b.step p.withoutHandlers i = effect' at hpaired hd'
      cases hpaired with
      | stop halike =>
        exact exists_goesAlike_of_ending hcalls h.regular h.regular'
          (ending?_of_stop h.alike.running hat hstep)
          (ending?_of_stop h.alike.running' hfound hstep') halike.toAlikeBehind
      | next halike =>
        refine ⟨0, ?_⟩
        rw [hd, hd']
        refine .running (h.goOn hcalls (congrArg _ hd) (congrArg _ hd') ?_ fun hset => ?_)
        · exact { halike with pc := congrArg (· + 1) halike.pc }
        · exact absurd (hforward.resuming.symm.trans hset) Bool.false_ne_true
      | jump halike target =>
        refine ⟨0, ?_⟩
        rw [hd, hd']
        refine .running (h.goOn hcalls (congrArg _ hd) (congrArg _ hd') ?_ fun hset => ?_)
        · exact { halike with pc := rfl }
        · exact absurd (hforward.resuming.symm.trans hset) Bool.false_ne_true
      | yield halike v =>
        refine ⟨0, ?_⟩
        rw [hd, hd']
        refine .done (.going (h.goOn hcalls (congrArg _ hd) (congrArg _ hd') ?_ fun _ => ?_)) _
        · exact { halike with resuming := rfl }
        · -- the run waits at the return
          obtain ⟨ticks, hexecute⟩ := step_eq_execute h.regular.interrupt p i
          obtain ⟨rfl, hstays⟩ := ret_of_yield (hexecute.symm.trans hstep)
          exact ⟨.ret, (congrArg p.at? hstays).trans hat, rfl, rfl⟩

/-- So it is until both runs are over. -/
theorem Mirrored.exists_goesAlike (h : Mirrored p a b) (hsafe : a.raises p = false) :
    ∃ n, GoesAlike p ((dispatch p a).pull p n) (dispatch p.withoutHandlers b) := by
  cases h with
  | going h => exact Machine.exists_goesAlike hcalls h hsafe
  | ended h h' =>
    refine ⟨0, ?_⟩
    rw [dispatch_finished h, dispatch_finished h']
    exact .done (.ended h h') none

/-! ## Pulls -/

/-- What the machine without handlers gives, the other one gives as well. -/
theorem mirrored_gives (h : Mirrored p a b) (hsafe : NeverFails p a)
    (hgives : Gives p.withoutHandlers b b' item) :
    ∃ a', Gives p a a' item ∧ Mirrored p a' b' := by
  obtain ⟨fuel, hpull⟩ := hgives
  induction fuel generalizing a b with
  | zero => cases hpull
  | succ fuel ih =>
    obtain ⟨n, hgoes⟩ := h.exists_goesAlike hcalls (hsafe 0 a rfl)
    rw [← pull_succ] at hgoes
    rw [pull_succ] at hpull
    generalize hfirst : pull p a (n + 1) = first at hgoes
    generalize dispatch p.withoutHandlers b = second at hgoes hpull
    cases hgoes with
    | running hnext =>
      obtain ⟨a', ⟨rest, hrest⟩, hmirrored⟩ := ih (.going hnext) (hsafe.rest hfirst) hpull
      exact ⟨a', ⟨n + 1 + rest, (pull_add hfirst rest).trans hrest⟩, hmirrored⟩
    | done hnext item =>
      obtain ⟨rfl, rfl⟩ := Progress.done.inj hpull
      exact ⟨_, ⟨n + 1, hfirst⟩, hnext⟩

/-- What the machine with handlers gives, the other one gives as well. -/
theorem gives_mirrored (h : Mirrored p a b) (hsafe : NeverFails p a) (hgives : Gives p a a' item) :
    ∃ b', Gives p.withoutHandlers b b' item ∧ Mirrored p a' b' := by
  obtain ⟨fuel, hpull⟩ := hgives
  -- a dispatch of the machine without handlers takes at least one of those that the other has left
  induction fuel using Nat.strongRecOn generalizing a b with
  | _ fuel ih =>
    obtain ⟨n, hgoes⟩ := h.exists_goesAlike hcalls (hsafe 0 a rfl)
    rw [← pull_succ] at hgoes
    generalize hfirst : pull p a (n + 1) = first at hgoes
    generalize hsecond : dispatch p.withoutHandlers b = second at hgoes
    cases hgoes with
    | running hnext =>
      obtain ⟨rest, rfl, hrest⟩ := pull_rest hpull hfirst
      obtain ⟨b', hgives, hmirrored⟩ :=
        ih rest (by omega) (.going hnext) (hsafe.rest hfirst) hrest
      exact ⟨b', gives_of_running hsecond hgives, hmirrored⟩
    | done hnext item =>
      obtain ⟨rfl, rfl⟩ := Gives.unique ⟨fuel, hpull⟩ ⟨n + 1, hfirst⟩
      exact ⟨_, gives_of_done hsecond, hnext⟩

end dispatch

/-! ## Whole runs -/

theorem Mirrored.withSignals (h : Mirrored p a b) (signals : Signals) :
    Mirrored p (a.withSignals signals) (b.withSignals signals) := by
  cases h with
  | going h =>
    exact .going ⟨{ h.alike with }, ⟨h.regular.coherent.withSignals signals, h.regular.interrupt,
      { h.regular.orderly with }, h.regular.branches⟩, ⟨h.regular'.coherent.withSignals signals,
      h.regular'.interrupt, { h.regular'.orderly with }, h.regular'.branches⟩, h.resumes⟩
  | ended h h' => exact .ended h h'

theorem regular_load (p : Program) (m : Machine) (settings : Settings) (input : Value) :
    Regular p (m.load settings input none) where
  coherent := coherent_load m settings input none
  interrupt := rfl
  orderly := by
    refine ⟨fun i cell hcell => ?_, fun call hcall => by cases hcall⟩
    simp [plain, load, reset, RewindStack.empty] at hcell
  branches := fun b hb => by cases hb

/-- Both runs start at the same place. -/
theorem mirrored_load (p : Program) (m : Machine) (settings : Settings) (input : Value) :
    Mirrored p (m.load settings input none) (m.load settings input none) := by
  refine .going ⟨?_, regular_load p m settings input, regular_load _ m settings input,
    fun hset => by cases hset⟩
  exact {
    size := rfl, registers := fun _ => rfl, offset := rfl, branches := rfl, sound := rfl
    sound' := rfl, running := rfl, running' := rfl, pc := rfl, stack := rfl, paths := rfl
    frames := rfl, resuming := rfl, call := rfl }

theorem mirrored_pulled (hcalls : p.CallsScopes) (hstart : Mirrored p a b)
    (hsafe : Unfailing p a signals) {k : Nat} (h : Pulled p.withoutHandlers b signals k b' item) :
    ∃ a', Pulled p a signals k a' item ∧ Mirrored p a' b' := by
  induction h with
  | first hgives =>
    obtain ⟨a', hgives', hmirrored⟩ :=
      mirrored_gives hcalls (hstart.withSignals (signals 0)) hsafe.first hgives
    exact ⟨a', .first hgives', hmirrored⟩
  | @next k b₁ b' before item _ hgives ih =>
    obtain ⟨a₁, hpulled, hmirrored₁⟩ := ih
    obtain ⟨a', hgives', hmirrored⟩ := mirrored_gives hcalls
      (hmirrored₁.withSignals (signals (k + 1))) (hsafe.next k a₁ before hpulled) hgives
    exact ⟨a', .next hpulled hgives', hmirrored⟩

theorem pulled_mirrored (hcalls : p.CallsScopes) (hstart : Mirrored p a b)
    (hsafe : Unfailing p a signals) {k : Nat} (h : Pulled p a signals k a' item) :
    ∃ b', Pulled p.withoutHandlers b signals k b' item ∧ Mirrored p a' b' := by
  induction h with
  | first hgives =>
    obtain ⟨b', hgives', hmirrored⟩ :=
      gives_mirrored hcalls (hstart.withSignals (signals 0)) hsafe.first hgives
    exact ⟨b', .first hgives', hmirrored⟩
  | @next k a₁ a' before item hpulled hgives ih =>
    obtain ⟨b₁, hpulled', hmirrored₁⟩ := ih
    obtain ⟨b', hgives', hmirrored⟩ := gives_mirrored hcalls
      (hmirrored₁.withSignals (signals (k + 1))) (hsafe.next k a₁ before hpulled) hgives
    exact ⟨b', .next hpulled' hgives', hmirrored⟩

/-- In a program that calls nothing but scopes, handlers make no difference to a run without an
interrupt in which nothing fails: with and without them, every pull gives the same item, or goes on
for ever. -/
theorem handlers_free (p : Program) (hcalls : p.CallsScopes) (idle : Machine) (settings : Settings)
    (input : Value) (signals : Nat → Signals)
    (hsafe : Unfailing p (idle.load settings input none) signals) (k : Nat) (item : Item) :
    (∃ m', Pulled p (idle.load settings input none) signals k m' item) ↔
      ∃ m', Pulled p.withoutHandlers (idle.load settings input none) signals k m' item := by
  have hstart := mirrored_load p idle settings input
  constructor
  · rintro ⟨m', hpulled⟩
    obtain ⟨b', hpulled', -⟩ := pulled_mirrored hcalls hstart hsafe hpulled
    exact ⟨b', hpulled'⟩
  · rintro ⟨m', hpulled⟩
    obtain ⟨a', hpulled', -⟩ := mirrored_pulled hcalls hstart hsafe hpulled
    exact ⟨a', hpulled'⟩

/-- Two handlers around a call. -/
def guardedProgram : Program where
  name := "guarded"
  code := #[.scope 0 0, .forkLabel "out", .forkOpt 4, .call 5, .ret, .scope 1 0, .ret]
  functions := #[]
  lines := #[]
  natives := {}

/-- The run gives its input, takes up both handlers, and is over. -/
theorem unfailing_guardedProgram :
    Unfailing guardedProgram (load {} {} .null none) fun _ => {} := by
  have hfirst : pull guardedProgram (load {} {} .null none) 7 =
      .done (pull guardedProgram (load {} {} .null none) 7).machine (some (.ok .null)) := rfl
  refine ⟨neverFails_of_done hfirst (by decide +kernel), ?_⟩
  intro k m' item hpulled
  have hstate : m' = (pull guardedProgram (load {} {} .null none) 7).machine ∨
      m'.finished = true := by
    induction hpulled with
    | first hgives => exact .inl (Gives.unique ⟨7, hfirst⟩ hgives).1
    | @next k m₁ _ _ _ _ hgives ih =>
      right
      rcases ih with rfl | hover
      · rw [(Gives.unique ⟨3, rfl⟩ hgives).1]
      · have hdone : Gives guardedProgram (m₁.withSignals {}) (m₁.withSignals {}) none :=
          gives_of_done (dispatch_finished hover)
        rw [(hdone.unique hgives).1]
        exact hover
  rcases hstate with rfl | hover
  · exact neverFails_of_done (n := 3) rfl (by decide +kernel)
  · exact neverFails_of_finished hover

/-- With and without its handlers, the run is over after one item. -/
theorem handlers_free_guardedProgram :
    guardedProgram.CallsScopes ∧
      Unfailing guardedProgram (load {} {} .null none) (fun _ => {}) ∧
      ((∃ m', Pulled guardedProgram (load {} {} .null none) (fun _ => {}) 1 m' none) ↔
        ∃ m', Pulled guardedProgram.withoutHandlers (load {} {} .null none) (fun _ => {}) 1 m'
          none) :=
  ⟨by decide, unfailing_guardedProgram,
    handlers_free guardedProgram (by decide) {} {} .null _ unfailing_guardedProgram 1 none⟩

end Machine
end QueryMachine
