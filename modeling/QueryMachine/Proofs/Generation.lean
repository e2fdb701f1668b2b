import Mathlib.Logic.Relation
import QueryMachine.Proofs.SoleScope

/-!
# Recursive generators

A function that answers with its input, and when it is asked for more passes what a native function
makes of it to itself, has no last result. Every result is given from one call deeper than the one
before, and goes through all the calls that are still open; the next pull goes back into the
innermost one.

* `tower`: the activations after so many calls, which stay in their cells when the run has returned
  from them;
* `leadsTo_enter`, `returnsThrough_tower`, `leadsTo_resume`: the parts of a pull;
* `Program.generation_lazy`: what every pull gives, by induction on its number.
-/

namespace QueryMachine

/-- What so many calls of a function, one after the other, make of a value. -/
def Native.iterate (native : Native) (v : Value) : Nat → Except NativeFailure Value
  | 0 => .ok v
  | k + 1 => (native.iterate v k).bind (native.run · [])

theorem Native.iterate_succ_eq_ok {native : Native} {v w : Value} {k : Nat}
    (h : native.iterate v (k + 1) = .ok w) :
    ∃ u, native.iterate v k = .ok u ∧ native.run u [] = .ok w := by
  rw [iterate] at h
  cases hk : native.iterate v k with
  | ok u =>
    rw [hk] at h
    exact ⟨u, rfl, h⟩
  | error failure =>
    rw [hk] at h
    cases h

/-! ## Parts of a pull -/

namespace Machine

variable {p : Program} {m m₁ m' : Machine} {item : Item} {signals : Nat → Signals}

/-- One dispatch after the other leads from a machine to another one, without an item. -/
def LeadsTo (p : Program) : Machine → Machine → Prop :=
  Relation.ReflTransGen fun m m' => dispatch p m = .running m'

/-- Dispatches without an item leave it to the rest of the pull. -/
theorem gives_of_leadsTo (h : LeadsTo p m m₁) (hgives : Gives p m₁ m' item) :
    Gives p m m' item := by
  induction h using Relation.ReflTransGen.head_induction_on with
  | refl => exact hgives
  | head hd _ ih => exact gives_of_running hd ih

/-- So many dispatches in a row return from a call each, and go on after the instruction that
called. -/
inductive ReturnsThrough (p : Program) : Nat → Machine → Machine → Prop where
  | nil {m : Machine} : ReturnsThrough p 0 m m
  | cons {calls target : Nat} {activation : Activation} {m m₁ m' : Machine}
      (hat : p.at? m.pc = some .ret) (htop : m.scopes.top? = some activation)
      (hcall : p.at? activation.returnPc = some (.call target))
      (hd : dispatch p m = .running m₁) (hpc : m₁.pc = activation.returnPc + 1)
      (h : ReturnsThrough p calls m₁ m') : ReturnsThrough p (calls + 1) m m'

theorem ReturnsThrough.leadsTo {calls : Nat} (h : ReturnsThrough p calls m m') :
    LeadsTo p m m' := by
  induction h with
  | nil => exact .refl
  | cons _ _ _ hd _ _ ih => exact .head hd ih

/-- Pull number `k` of a host starts from this machine. -/
inductive Starts (p : Program) (m : Machine) (signals : Nat → Signals) : Nat → Machine → Prop where
  | first : Starts p m signals 0 (m.withSignals (signals 0))
  | next {k : Nat} {m₁ : Machine} {before : Item} (h : Pulled p m signals k m₁ before) :
      Starts p m signals (k + 1) (m₁.withSignals (signals (k + 1)))

theorem Starts.pulled {k : Nat} (h : Starts p m signals k m₁) (hgives : Gives p m₁ m' item) :
    Pulled p m signals k m' item := by
  cases h with
  | first => exact .first hgives
  | next h => exact .next h hgives

/-- Pull number `k` ends by returning from so many calls, and then from the outermost scope with
the result. -/
def ReturnsResult (p : Program) (m : Machine) (signals : Nat → Signals) (k calls : Nat) (v : Value)
    (m' : Machine) : Prop :=
  ∃ m₀ m₁ m₂, Starts p m signals k m₀ ∧ LeadsTo p m₀ m₁ ∧ ReturnsThrough p calls m₁ m₂ ∧
    dispatch p m₂ = .done m' (some (.ok v))

theorem ReturnsResult.pulled {k calls : Nat} {v : Value}
    (h : ReturnsResult p m signals k calls v m') : Pulled p m signals k m' (some (.ok v)) := by
  obtain ⟨m₀, m₁, m₂, hstarts, hleads, hreturns, hd⟩ := h
  exact hstarts.pulled (gives_of_leadsTo (hleads.trans hreturns.leadsTo) (gives_of_done hd))

end Machine

/-! ## The program -/

/-- The program of a function that answers with its input, or else passes what the native function
makes of it to itself. -/
def Program.generation (natives : NativeTable) (id : NativeId) : Program where
  name := "generation"
  code := #[.scope 0 0, .call 3, .ret, .scope 1 0, .fork 6, .ret, .callNative id 0, .call 3, .ret]
  functions := #[]
  lines := #[]
  natives

namespace Generation

open PlainMachine (follow step_eq_execute dispatch_at)
open Machine (LeadsTo ReturnsThrough dispatch)
open Program (generation)

/-- The instruction that calls the function from so many open calls. -/
def callPc : Nat → Nat
  | 0 => 1
  | _ + 1 => 7

/-- The activation that lies at this height, on top of that of its caller. -/
def storey : Nat → Cell Activation
  | 0 => ⟨⟨0, 0, 9, none⟩, none⟩
  | calls + 1 => ⟨⟨1, 0, callPc calls, some calls⟩, some calls⟩

/-- The activations of so many calls that have been made from one another. -/
def tower (calls : Nat) : Array (Cell Activation) :=
  Array.ofFn fun i : Fin (calls + 1) => storey i

theorem size_tower (calls : Nat) : (tower calls).size = calls + 1 :=
  Array.size_ofFn

theorem tower_succ (calls : Nat) : tower (calls + 1) = (tower calls).push (storey (calls + 1)) :=
  Array.ofFn_succ

theorem getElem?_tower {calls i : Nat} (h : i ≤ calls) : (tower calls)[i]? = some (storey i) := by
  rw [tower, Array.getElem?_ofFn, dif_pos (Nat.lt_succ_of_le h)]

theorem push_tower (calls : Nat) :
    RewindStack.push ⟨tower calls, some calls, none⟩ (storey (calls + 1)).value =
      ⟨tower (calls + 1), some (calls + 1), none⟩ := by
  have hplace : RewindStack.nextCell ⟨tower calls, some calls, none⟩ = calls + 1 := rfl
  have hfull : ¬ calls + 1 < (tower calls).size := by simp [size_tower]
  rw [RewindStack.push]
  dsimp only
  rw [hplace, if_neg hfull, tower_succ]
  rfl

/-! ## Where a run is -/

/-- Inside the last of so many calls, and of no branch. -/
def inside (calls pc : Nat) (v : Value) : PlainMachine where
  pc
  scopes := ⟨tower calls, some calls, none⟩
  stack := [.value v]

/-- On the way into the function. -/
def calling (calls : Nat) (v : Value) : PlainMachine where
  pc := 3
  scopes := ⟨tower calls, some calls, none⟩
  stack := [.value v]
  pendingCall := some ⟨callPc calls, some calls⟩

/-- The branch that the last call leaves behind. -/
def again (calls : Nat) (v : Value) : PlainBranch :=
  ⟨4, .fork, [.value v], [], ⟨some calls, none⟩⟩

/-- On the way back from so many calls, with some of them returned from. -/
def leaving (calls height pc : Nat) (v : Value) : PlainMachine where
  pc
  scopes := ⟨tower calls, some height, some calls⟩
  stack := [.value v]
  branches := [again calls v]

/-- Between two pulls. All calls have been returned from, and only the branch of the last one is
left. -/
def suspended (calls : Nat) (v : Value) : PlainMachine where
  pc := 2
  scopes := ⟨tower calls, none, some calls⟩
  branches := [again calls v]
  resuming := true

/-- These machines differ in their registers, their counts, their signals and their settings at
most. -/
def Like (a m : PlainMachine) : Prop :=
  ∃ registers ticks signals settings, m = { a with registers, ticks, signals, settings }

/-- The run is where this machine without sharing is. -/
structure IsAt (a : PlainMachine) (m : Machine) : Prop where
  coherent : m.Coherent
  like : Like a m.plain

variable {a a' : PlainMachine} {m : Machine} {p : Program} {i : Instruction} {item : Item}

theorem IsAt.pc (h : IsAt a m) : m.pc = a.pc := by
  obtain ⟨_, _, _, _, hplain⟩ := h.like
  exact congrArg PlainMachine.pc hplain

theorem IsAt.scopes (h : IsAt a m) : m.scopes = a.scopes := by
  obtain ⟨_, _, _, _, hplain⟩ := h.like
  exact congrArg PlainMachine.scopes hplain

theorem IsAt.finished (h : IsAt a m) : m.finished = a.finished := by
  obtain ⟨_, _, _, _, hplain⟩ := h.like
  exact congrArg PlainMachine.finished hplain

theorem IsAt.withSignals (h : IsAt a m) (signals : Signals) : IsAt a (m.withSignals signals) := by
  obtain ⟨registers, ticks, _, settings, hplain⟩ := h.like
  exact ⟨h.coherent.withSignals signals, registers, ticks, signals, settings,
    congrArg (fun m : PlainMachine => { m with signals }) hplain⟩

/-- A dispatch carries out the instruction there, whatever the registers and the count. -/
theorem IsAt.follow_execute (h : IsAt a m) (hcalm : a.interrupt = none)
    (hrunning : a.finished = false) (hat : p.at? a.pc = some i) :
    ∃ m', Like a m' ∧ PlainMachine.dispatch p m.plain = follow (m'.execute p i) := by
  obtain ⟨registers, ticks, signals, settings, hplain⟩ := h.like
  have hinterrupt : m.plain.interrupt = none := by rw [hplain, hcalm]
  obtain ⟨ticks', hstep⟩ := step_eq_execute hinterrupt p i
  refine ⟨{ m.plain with ticks := ticks' }, ⟨registers, ticks', signals, settings, ?_⟩, ?_⟩
  · rw [hplain]
  · rw [dispatch_at (by rw [hplain, hrunning]) (by rw [hplain, hat]), hstep]

/-- From where the first of these machines is, the next dispatch leads to where the other one is. -/
def Advances (p : Program) (a a' : PlainMachine) : Prop :=
  ∀ ⦃m⦄, IsAt a m → ∃ m', dispatch p m = .running m' ∧ IsAt a' m'

theorem advances_of_follow (hcalm : a.interrupt = none) (hrunning : a.finished = false)
    (hat : p.at? a.pc = some i)
    (hnext : ∀ m, Like a m → ∃ m', follow (m.execute p i) = .running m' ∧ Like a' m') :
    Advances p a a' := by
  intro m h
  obtain ⟨m₀, hlike, hd⟩ := h.follow_execute hcalm hrunning hat
  obtain ⟨_, hfollow, hlike'⟩ := hnext m₀ hlike
  obtain ⟨m', hdispatch, hcoherent, rfl⟩ :=
    Machine.dispatch_of_running h.coherent (hd.trans hfollow)
  exact ⟨m', hdispatch, hcoherent, hlike'⟩

theorem done_of_follow (h : IsAt a m) (hcalm : a.interrupt = none) (hrunning : a.finished = false)
    (hat : p.at? a.pc = some i)
    (hend : ∀ m, Like a m → ∃ m', follow (m.execute p i) = .done m' item ∧ Like a' m') :
    ∃ m', dispatch p m = .done m' item ∧ IsAt a' m' := by
  obtain ⟨m₀, hlike, hd⟩ := h.follow_execute hcalm hrunning hat
  obtain ⟨_, hfollow, hlike'⟩ := hend m₀ hlike
  obtain ⟨m', hdispatch, hcoherent, rfl⟩ :=
    Machine.dispatch_of_done h.coherent (hd.trans hfollow)
  exact ⟨m', hdispatch, hcoherent, hlike'⟩

/-! ## From one pull to the next -/

variable {natives : NativeTable} {id : NativeId} {native : Native} {calls height pc : Nat}
  {v w : Value} {failure : NativeFailure}

theorem at?_callPc (natives : NativeTable) (id : NativeId) (calls : Nat) :
    (generation natives id).at? (callPc calls) = some (.call 3) := by
  cases calls <;> rfl

theorem at?_callPc_succ (natives : NativeTable) (id : NativeId) (calls : Nat) :
    (generation natives id).at? (callPc calls + 1) = some .ret := by
  cases calls <;> rfl

theorem advances_call :
    Advances (generation natives id) (inside calls (callPc calls) v) (calling calls v) := by
  refine advances_of_follow rfl rfl (at?_callPc natives id calls) ?_
  rintro _ ⟨registers, ticks, signals, settings, rfl⟩
  exact ⟨_, rfl, registers, ticks, signals, settings, rfl⟩

theorem advances_scope :
    Advances (generation natives id) (calling calls v) (inside (calls + 1) 4 v) := by
  refine advances_of_follow rfl rfl (i := .scope 1 0) rfl ?_
  rintro _ ⟨registers, ticks, signals, settings, rfl⟩
  refine ⟨{ inside (calls + 1) 4 v with
    registers := Machine.growRegisters registers 0, ticks, signals, settings }, ?_,
    _, _, _, _, rfl⟩
  -- the caller is the top, so nothing is frozen
  have hscopes : (Machine.calleeScopes ⟨tower calls, some calls, none⟩ (some calls)).push
      (storey (calls + 1)).value = ⟨tower (calls + 1), some (calls + 1), none⟩ := by
    rw [Machine.calleeScopes, if_pos rfl, push_tower]
  exact congrArg (fun scopes => PlainProgress.running { inside (calls + 1) 4 v with
    scopes, registers := Machine.growRegisters registers 0, ticks, signals, settings }) hscopes

theorem advances_fork :
    Advances (generation natives id) (inside calls 4 v) (leaving calls calls 5 v) := by
  refine advances_of_follow rfl rfl (i := .fork 6) rfl ?_
  rintro _ ⟨registers, ticks, signals, settings, rfl⟩
  exact ⟨_, rfl, registers, ticks, signals, settings, rfl⟩

/-- One more call, which leaves its branch behind. -/
theorem leadsTo_enter (h : IsAt (inside calls (callPc calls) v) m) :
    ∃ m', LeadsTo (generation natives id) m m' ∧ IsAt (leaving (calls + 1) (calls + 1) 5 v) m' := by
  obtain ⟨m₁, hcall, h₁⟩ := advances_call h
  obtain ⟨m₂, hscope, h₂⟩ := advances_scope h₁
  obtain ⟨m', hfork, h'⟩ := advances_fork h₂
  exact ⟨m', .head hcall (.head hscope (.single hfork)), h'⟩

theorem pop?_leaving (hle : height ≤ calls) :
    (leaving calls height pc v).scopes.pop? =
      some ((storey height).value, ⟨tower calls, (storey height).below, some calls⟩) := by
  rw [leaving, RewindStack.pop?, RewindStack.cell?]
  dsimp only
  rw [getElem?_tower hle]
  rfl

theorem top?_leaving (hle : height ≤ calls) :
    (leaving calls height pc v).scopes.top? = some (storey height).value := by
  rw [leaving, RewindStack.top?, RewindStack.cell?]
  dsimp only
  rw [getElem?_tower hle]
  rfl

/-- A return to a call goes on after it, in the activation of the caller. -/
theorem advances_ret (hat : (generation natives id).at? pc = some .ret) (hle : height < calls) :
    Advances (generation natives id) (leaving calls (height + 1) pc v)
      (leaving calls height (callPc height + 1) v) := by
  refine advances_of_follow rfl rfl hat ?_
  rintro m ⟨registers, ticks, signals, settings, rfl⟩
  refine ⟨{ leaving calls height (callPc height + 1) v with registers, ticks, signals, settings },
    ?_, _, _, _, _, rfl⟩
  rw [PlainMachine.execute, PlainMachine.leaveScope]
  dsimp only
  rw [pop?_leaving hle]
  rfl

/-- A return from the outermost scope gives the value. -/
theorem done_ret (h : IsAt (leaving calls 0 2 v) m) :
    ∃ m', dispatch (generation natives id) m = .done m' (some (.ok v)) ∧
      IsAt (suspended calls v) m' := by
  refine done_of_follow h rfl rfl (i := .ret) rfl ?_
  rintro _ ⟨registers, ticks, signals, settings, rfl⟩
  refine ⟨{ suspended calls v with registers, ticks, signals, settings }, ?_, _, _, _, _, rfl⟩
  rw [PlainMachine.execute, PlainMachine.leaveScope]
  dsimp only
  rw [pop?_leaving (Nat.zero_le calls)]
  rfl

/-- One more return before those that follow. -/
theorem returnsThrough_ret (hat : (generation natives id).at? pc = some .ret)
    (hlt : height < calls) (h : IsAt (leaving calls (height + 1) pc v) m) :
    ∃ m₁, IsAt (leaving calls height (callPc height + 1) v) m₁ ∧
      ∀ {returns m'}, ReturnsThrough (generation natives id) returns m₁ m' →
        ReturnsThrough (generation natives id) (returns + 1) m m' := by
  obtain ⟨m₁, hd, h₁⟩ := advances_ret hat hlt h
  have htop : m.scopes.top? = some (storey (height + 1)).value := by
    rw [h.scopes, top?_leaving hlt]
  exact ⟨m₁, h₁, .cons (h.pc ▸ hat) htop (at?_callPc natives id height) hd h₁.pc⟩

/-- From any height all calls are returned from, one after the other. -/
theorem returnsThrough_tower (hat : (generation natives id).at? pc = some .ret)
    (hlt : height < calls) (h : IsAt (leaving calls (height + 1) pc v) m) :
    ∃ m', ReturnsThrough (generation natives id) (height + 1) m m' ∧
      IsAt (leaving calls 0 2 v) m' := by
  induction height generalizing m pc with
  | zero =>
    obtain ⟨m₁, h₁, hcons⟩ := returnsThrough_ret hat hlt h
    exact ⟨m₁, hcons .nil, h₁⟩
  | succ height ih =>
    obtain ⟨m₁, h₁, hcons⟩ := returnsThrough_ret hat hlt h
    obtain ⟨m', hreturns, h'⟩ := ih (at?_callPc_succ natives id _) (Nat.lt_of_succ_lt hlt) h₁
    exact ⟨m', hcons hreturns, h'⟩

/-- Taking up the branch of the last call leads on behind its fork. -/
theorem leadsTo_resume (natives : NativeTable) (id : NativeId) (h : IsAt (suspended calls v) m) :
    ∃ m', LeadsTo (generation natives id) m m' ∧ IsAt (inside calls 6 v) m' := by
  have hret : Advances (generation natives id) (suspended calls v)
      { inside calls 4 v with resuming := true } := by
    refine advances_of_follow rfl rfl (i := .ret) rfl ?_
    rintro _ ⟨registers, ticks, signals, settings, rfl⟩
    exact ⟨_, rfl, registers, ticks, signals, settings, rfl⟩
  have hfork : Advances (generation natives id) { inside calls 4 v with resuming := true }
      (inside calls 6 v) := by
    refine advances_of_follow rfl rfl (i := .fork 6) rfl ?_
    rintro _ ⟨registers, ticks, signals, settings, rfl⟩
    exact ⟨_, rfl, registers, ticks, signals, settings, rfl⟩
  obtain ⟨m₁, hd₁, h₁⟩ := hret h
  obtain ⟨m', hd, h'⟩ := hfork h₁
  exact ⟨m', .head hd₁ (.single hd), h'⟩

/-- What the function makes of the value takes its place. -/
theorem advances_callNative (hcall : natives.call id v [] = .ok w) :
    Advances (generation natives id) (inside calls 6 v) (inside calls 7 w) := by
  refine advances_of_follow rfl rfl (i := .callNative id 0) rfl ?_
  rintro m ⟨registers, ticks, signals, settings, hm⟩
  have hstack : m.stack = .value v :: (([] : List Value).map .value ++ []) := by rw [hm]; rfl
  obtain ⟨signals', hexecute⟩ := Program.execute_callNative_answer (p := generation natives id)
    hstack (by rw [hm]; rfl) hcall
  subst hm
  exact ⟨_, congrArg follow hexecute, registers, ticks, signals', settings, rfl⟩

/-- Without a branch a failure is the last item. -/
theorem done_callNative (hcall : natives.call id v [] = .error failure)
    (h : IsAt (inside calls 6 v) m) :
    ∃ m', dispatch (generation natives id) m = .done m' (some (.error (.ofFailure failure))) ∧
      m'.finished = true := by
  suffices hdone : ∃ m', dispatch (generation natives id) m =
      .done m' (some (.error (.ofFailure failure))) ∧
      IsAt { inside calls 6 v with stack := [], finished := true } m' by
    obtain ⟨m', hd, h'⟩ := hdone
    exact ⟨m', hd, h'.finished⟩
  refine done_of_follow h rfl rfl (i := .callNative id 0) rfl ?_
  rintro m ⟨registers, ticks, signals, settings, hm⟩
  have hstack : m.stack = .value v :: (([] : List Value).map .value ++ []) := by rw [hm]; rfl
  obtain ⟨signals', hexecute⟩ := Program.execute_callNative_failure (p := generation natives id)
    hstack hcall
  subst hm
  refine ⟨_, (congrArg follow hexecute).trans ?_, registers, ticks, signals', settings, rfl⟩
  simp [follow, PlainMachine.raise, PlainMachine.unwind, inside]

/-- A run comes into the outermost scope. -/
theorem exists_isAt_inside (natives : NativeTable) (id : NativeId) (idle : Machine)
    (settings : Settings) (v : Value) (signals : Signals) :
    ∃ m, dispatch (generation natives id) ((idle.load settings v none).withSignals signals) =
      .running m ∧ IsAt (inside 0 1 v) m := by
  have hload : IsAt (.load {} v none) (idle.load settings v none) :=
    ⟨Machine.coherent_load idle settings v none, Array.replicate settings.initialRegisters default,
      0, {}, settings, Machine.plain_load idle settings v none⟩
  suffices hscope : Advances (generation natives id) (.load {} v none) (inside 0 1 v) from
    hscope (hload.withSignals signals)
  refine advances_of_follow rfl rfl (i := .scope 0 0) rfl ?_
  rintro _ ⟨registers, ticks, signals, settings, rfl⟩
  exact ⟨_, rfl, _, ticks, signals, settings, rfl⟩

/-- A pull that has come to a call gives the value through all calls. -/
theorem returnsResult_of_isAt {m₀ m₁ : Machine} {signals : Nat → Signals} {k : Nat}
    (hstarts : Machine.Starts (generation natives id) m signals k m₀)
    (hleads : LeadsTo (generation natives id) m₀ m₁)
    (h : IsAt (inside calls (callPc calls) v) m₁) :
    ∃ m', Machine.ReturnsResult (generation natives id) m signals k (calls + 1) v m' ∧
      IsAt (suspended (calls + 1) v) m' := by
  obtain ⟨m₂, henter, h₂⟩ := leadsTo_enter h
  obtain ⟨m₃, hreturns, h₃⟩ := returnsThrough_tower rfl (Nat.lt_succ_self calls) h₂
  obtain ⟨m', hd, h'⟩ := done_ret h₃
  exact ⟨m', ⟨m₀, m₂, m₃, hstarts, hleads.trans henter, hreturns, hd⟩, h'⟩

/-- Every pull that the function allows gives what it makes of the value, and leaves the run where
the next one can go on. -/
theorem returnsResult_iterate (hcall : ∀ v, natives.call id v [] = native.run v [])
    (idle : Machine) (settings : Settings) (v : Value) (signals : Nat → Signals) {k : Nat}
    (h : native.iterate v k = .ok w) :
    ∃ m', Machine.ReturnsResult (generation natives id) (idle.load settings v none) signals k
      (k + 1) w m' ∧ IsAt (suspended (k + 1) w) m' := by
  induction k generalizing w with
  | zero =>
    obtain rfl := Except.ok.inj h
    obtain ⟨m₁, hd, h₁⟩ := exists_isAt_inside natives id idle settings v (signals 0)
    exact returnsResult_of_isAt .first (.single hd) h₁
  | succ k ih =>
    -- the pull before has left the branch of its last call, and the next call is made from there
    obtain ⟨u, hu, hw⟩ := Native.iterate_succ_eq_ok h
    obtain ⟨m₀, hresult, h₀⟩ := ih hu
    obtain ⟨m₁, hresume, h₁⟩ := leadsTo_resume natives id (h₀.withSignals (signals (k + 1)))
    obtain ⟨m₂, hd, h₂⟩ := advances_callNative ((hcall u).trans hw) h₁
    exact returnsResult_of_isAt (.next hresult.pulled) (hresume.tail hd) h₂

/-- The first failure is the item of its pull, and the last one. -/
theorem pulled_failure (hcall : ∀ v, natives.call id v [] = native.run v [])
    (idle : Machine) (settings : Settings) (v : Value) (signals : Nat → Signals) {k : Nat}
    (hbefore : native.iterate v k = .ok w) (hfailure : native.run w [] = .error failure) :
    ∃ m', Machine.Pulled (generation natives id) (idle.load settings v none) signals (k + 1) m'
      (some (.error (.ofFailure failure))) ∧ m'.finished = true := by
  obtain ⟨m₀, hresult, h₀⟩ := returnsResult_iterate hcall idle settings v signals hbefore
  obtain ⟨m₁, hresume, h₁⟩ := leadsTo_resume natives id (h₀.withSignals (signals (k + 1)))
  obtain ⟨m', hd, hover⟩ := done_callNative ((hcall w).trans hfailure) h₁
  exact ⟨m', .next hresult.pulled (Machine.gives_of_leadsTo hresume (Machine.gives_of_done hd)),
    hover⟩

end Generation

namespace Program

variable {natives : NativeTable} {id : NativeId} {native : Native}

/-- Pull number `k` of a recursive generator gives what `k` applications of the function make of its
input, through the `k + 1` calls that have been made for it. If the application with this number is
the first one to fail, the pull gives the fault instead, and all later pulls give nothing. -/
theorem generation_lazy (hget : natives.get? id = some native) (harity : native.arity = 0)
    (idle : Machine) (settings : Settings) (v : Value) (signals : Nat → Signals) :
    (∀ k w, native.iterate v k = .ok w →
      ∃ m', Machine.ReturnsResult (generation natives id) (idle.load settings v none) signals k
          (k + 1) w m' ∧
        Machine.Pulled (generation natives id) (idle.load settings v none) signals k m'
          (some (.ok w))) ∧
      ∀ k failure, (∀ j < k, ∃ w, native.iterate v j = .ok w) →
        native.iterate v k = .error failure →
        (∃ m', Machine.Pulled (generation natives id) (idle.load settings v none) signals k m'
          (some (.error (.ofFailure failure)))) ∧
        ∀ j > k, ∃ m', Machine.Pulled (generation natives id) (idle.load settings v none) signals j
          m' none := by
  have hcall : ∀ v, natives.call id v [] = native.run v [] := call_eq_run hget harity.symm
  constructor
  · intro k w h
    obtain ⟨m', hresult, -⟩ := Generation.returnsResult_iterate hcall idle settings v signals h
    exact ⟨m', hresult, hresult.pulled⟩
  · intro k failure hbefore hfailure
    cases k with
    | zero => cases hfailure
    | succ k =>
      obtain ⟨w, hw⟩ := hbefore k (Nat.lt_succ_self k)
      have hrun : native.run w [] = .error failure := by
        rw [Native.iterate, hw] at hfailure
        exact hfailure
      obtain ⟨m', hpulled, hover⟩ :=
        Generation.pulled_failure hcall idle settings v signals hw hrun
      refine ⟨⟨m', hpulled⟩, fun j hj => ?_⟩
      obtain ⟨d, rfl⟩ := Nat.exists_eq_add_of_le (Nat.succ_le_of_lt hj)
      obtain ⟨m'', hnone, -⟩ := Machine.pulled_finished hpulled hover d
      exact ⟨m'', hnone⟩

/-- Adds one to an integer below two, and fails for anything else. -/
def climb : Native where
  name := "climb"
  arity := 0
  run := fun input _ =>
    match input with
    | .int n => if n < 2 then .ok (.int (n + 1)) else .error (.runtime "top")
    | _ => .error (.runtime "top")

/-- Two applications succeed and the third one fails. -/
theorem generation_lazy_climb :
    let natives : NativeTable := .registerAll {} [climb]
    let m := Machine.load {} {} (.int 0) none
    let signals : Nat → Signals := fun _ => {}
    natives.get? 0 = some climb ∧ climb.arity = 0 ∧
      (∃ m', Machine.ReturnsResult (generation natives 0) m signals 2 3 (.int 2) m' ∧
        Machine.Pulled (generation natives 0) m signals 2 m' (some (.ok (.int 2)))) ∧
      (∃ m', Machine.Pulled (generation natives 0) m signals 3 m'
        (some (.error (.native (.runtime "top"))))) ∧
      ∃ m', Machine.Pulled (generation natives 0) m signals 4 m' none := by
  intro natives m signals
  have hget : natives.get? 0 = some climb := rfl
  have hbefore : ∀ j < 3, ∃ w, climb.iterate (.int 0) j = .ok w := fun j hj =>
    match j, hj with
    | 0, _ => ⟨.int 0, rfl⟩
    | 1, _ => ⟨.int 1, rfl⟩
    | 2, _ => ⟨.int 2, rfl⟩
  obtain ⟨hresults, hfailures⟩ := generation_lazy hget rfl {} {} (.int 0) signals
  obtain ⟨hfault, hnone⟩ := hfailures 3 (.runtime "top") hbefore rfl
  exact ⟨hget, rfl, hresults 2 (.int 2) rfl, hfault, hnone 4 (by decide)⟩

end Program
end QueryMachine
