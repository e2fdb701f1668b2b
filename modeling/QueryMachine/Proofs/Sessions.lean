import QueryMachine.Proofs.Configuration

/-!
# Runs of a session keep apart

The runs of a session take their machines from one pool and are pulled in any order. A run without
an interrupt gives what it would give if it were the only one.

* `Session.serve` and `Session.turnsOf`: a session that is asked for anything, and what its host
  gets for the pulls of one run;
* `acquire_eq`: a machine from the pool is as good as a new one;
* `pull_self`, `pull_other`: a pull changes the machine of its own run and of no other;
* `StandsAlike`: the run stands as it would on its own. Every request keeps this, so that the turns
  are the same (`runs_keep_apart`).
-/

namespace QueryMachine

/-! ## Requests -/

/-- What a host can ask of a session. -/
inductive Request where
  | start (program : Program) (settings : Settings) (input : Value) (interrupt : Option Interrupt)
  | pull (number fuel : Nat)
  | drop (number : Nat)
  | cancel (flag : Nat)
  /-- The time goes on. -/
  | wait (now : Nat)

/-- A request for one run, for a session that has no other. -/
def Request.forRun (number : Nat) : Request → Option Request
  | .pull asked fuel => if asked = number then some (.pull 0 fuel) else none
  | .drop asked => if asked = number then some (.drop 0) else none
  | _ => none

/-! ## Pulls -/

/-- What the host gets for a pull that has come so far. -/
def Progress.turn : Progress → Turn
  | .running _ => .paused
  | .done _ item => .gave item

/-- The machine that is left to the run, unless it has given its last item. -/
def Progress.rest? : Progress → Option Machine
  | .running m => some m
  | .done m item => if Session.isLast item then none else some m

theorem Progress.turn_map (f : Machine → Machine) (progress : Progress) :
    (progress.map f).turn = progress.turn := by
  cases progress <;> rfl

theorem Progress.rest?_map (f : Machine → Machine) (progress : Progress) :
    (progress.map f).rest? = progress.rest?.map f := by
  cases progress with
  | running m => rfl
  | done m item =>
    show (if Session.isLast item then none else some (f m)) =
      (if Session.isLast item then none else some m).map f
    split <;> rfl

theorem Progress.eq_machine_of_rest? {progress : Progress} {m : Machine}
    (h : progress.rest? = some m) : m = progress.machine := by
  cases progress with
  | running m' => exact (Option.some.inj h).symm
  | done m' item =>
    rw [rest?] at h
    split at h
    · cases h
    · exact (Option.some.inj h).symm

namespace Session

variable {s s' own : Session} {number other : Nat} {program : Program} {settings : Settings}
  {m : Machine}

/-- The session after a request. -/
def serve (s : Session) : Request → Session
  | .start program settings input interrupt => (s.start program settings input interrupt).1
  | .pull number fuel => (s.pull number fuel).1
  | .drop number => s.drop number
  | .cancel flag => s.cancel flag
  | .wait now => { s with signals := { s.signals with now } }

/-- What a host gets for a request, if it is a pull of this run. -/
def answer? (s : Session) (number : Nat) : Request → Option Turn
  | .pull asked fuel => if asked = number then some (s.pull asked fuel).2 else none
  | _ => none

/-- What a host gets for its pulls of one run, among all that it asks for. -/
def turnsOf (number : Nat) (s : Session) : List Request → List Turn
  | [] => []
  | request :: later =>
    (s.answer? number request).toList ++ turnsOf number (s.serve request) later

/-! ## Machines from the pool -/

/-- Loading a machine leaves nothing of what it was. -/
theorem load_eq (idle : Machine) (settings : Settings) (input : Value)
    (interrupt : Option Interrupt) :
    idle.load settings input interrupt = Machine.load {} settings input interrupt := rfl

theorem acquire_eq (pool : Pool) (settings : Settings) (input : Value)
    (interrupt : Option Interrupt) :
    (pool.acquire settings input interrupt).1 = Machine.load {} settings input interrupt := by
  unfold Pool.acquire
  split
  · exact load_eq _ settings input interrupt
  · rfl

/-! ## One request -/

theorem start_runs (s : Session) (program : Program) (settings : Settings) (input : Value)
    (interrupt : Option Interrupt) : (s.start program settings input interrupt).1.runs =
      s.runs.push ⟨program, settings, some (.load {} settings input interrupt)⟩ := by
  rw [← acquire_eq s.pool]
  rfl

theorem setMachine_self (h : s.runs[number]? = some ⟨program, settings, some m⟩)
    (machine : Option Machine) :
    (s.setMachine number machine).runs[number]? = some ⟨program, settings, machine⟩ := by
  rw [setMachine, Array.getElem?_modify, if_pos rfl, h]
  rfl

theorem setMachine_other (s : Session) (machine : Option Machine) (hne : other ≠ number) :
    (s.setMachine other machine).runs[number]? = s.runs[number]? := by
  rw [setMachine, Array.getElem?_modify, if_neg hne]

/-- A pull gives the host what the machine of the run gives, and leaves the rest to the run. -/
theorem pull_self (h : s.runs[number]? = some ⟨program, settings, some m⟩) (fuel : Nat) :
    (s.pull number fuel).2 = (Machine.pull program (m.withSignals s.signals) fuel).turn ∧
      (s.pull number fuel).1.runs[number]? =
        some ⟨program, settings, (Machine.pull program (m.withSignals s.signals) fuel).rest?⟩ := by
  have htaken := setMachine_self h none
  have hpulled : ∀ machine, ((s.setMachine number none).setMachine number machine).runs[number]? =
      some ⟨program, settings, machine⟩ := by
    intro machine
    rw [setMachine, Array.getElem?_modify, if_pos rfl, htaken]
    rfl
  rw [Session.pull, h]
  dsimp only
  rw [show (s.setMachine number none).signals = s.signals from rfl]
  cases Machine.pull program (m.withSignals s.signals) fuel with
  | running m' => exact ⟨rfl, hpulled (some m')⟩
  | done m' item =>
    dsimp only [Progress.rest?]
    split
    · exact ⟨rfl, htaken⟩
    · exact ⟨rfl, hpulled (some m')⟩

/-- A run that is over, or has been dropped, has nothing left. -/
theorem pull_over (h : s.runs[number]? = some ⟨program, settings, none⟩) (fuel : Nat) :
    s.pull number fuel = (s, .gave none) := by
  rw [Session.pull, h]

theorem pull_other (s : Session) (fuel : Nat) (hne : other ≠ number) :
    (s.pull other fuel).1.runs[number]? = s.runs[number]? := by
  unfold Session.pull
  split
  · dsimp only
    split
    · exact (setMachine_other _ _ hne).trans (setMachine_other _ _ hne)
    · split
      · exact setMachine_other _ _ hne
      · exact (setMachine_other _ _ hne).trans (setMachine_other _ _ hne)
  · rfl

theorem drop_self {machine : Option Machine}
    (h : s.runs[number]? = some ⟨program, settings, machine⟩) :
    (s.drop number).runs[number]? = some ⟨program, settings, none⟩ := by
  rw [Session.drop, h]
  cases machine with
  | none => exact h
  | some m => exact setMachine_self h none

theorem drop_other (s : Session) (hne : other ≠ number) :
    (s.drop other).runs[number]? = s.runs[number]? := by
  unfold Session.drop
  split
  · exact setMachine_other _ _ hne
  · rfl

/-! ## A run among others and on its own -/

/-- A run of the session stands as the only run of another one: both are over, or the two machines
agree and have no interrupt. -/
inductive StandsAlike (s own : Session) (number : Nat) : Prop where
  | ended {program : Program} {settings : Settings}
      (h : s.runs[number]? = some ⟨program, settings, none⟩)
      (hown : own.runs[0]? = some ⟨program, settings, none⟩)
  | running {program : Program} {settings : Settings} {m : Machine} {b : Backdrop}
      (h : s.runs[number]? = some ⟨program, settings, some (m.against b)⟩)
      (hown : own.runs[0]? = some ⟨program, settings, some m⟩) (hagree : m.Agree program b)
      (hnone : m.interrupt = none) (hnone' : b.interrupt = none)

namespace StandsAlike

/-- What happens to other runs makes no difference. -/
theorem of_eq (h : StandsAlike s own number) (hsame : s'.runs[number]? = s.runs[number]?) :
    StandsAlike s' own number := by
  cases h with
  | ended h hown => exact .ended (hsame.trans h) hown
  | running h hown hagree hnone hnone' => exact .running (hsame.trans h) hown hagree hnone hnone'

theorem lt_size (h : StandsAlike s own number) : number < s.runs.size := by
  cases h with
  | ended h hown => exact (Array.getElem?_eq_some_iff.mp h).1
  | running h hown hagree hnone hnone' => exact (Array.getElem?_eq_some_iff.mp h).1

/-- Both give the same for a pull, whatever the signals of the two sessions are. -/
theorem pull (h : StandsAlike s own number) (fuel : Nat) :
    (s.pull number fuel).2 = (own.pull 0 fuel).2 ∧
      StandsAlike (s.pull number fuel).1 (own.pull 0 fuel).1 number := by
  cases h with
  | ended h hown =>
    rw [pull_over h, pull_over hown]
    exact ⟨rfl, .ended h hown⟩
  | @running program settings m b h hown hagree hnone hnone' =>
    obtain ⟨hturn, hleft⟩ := pull_self h fuel
    obtain ⟨hturn', hleft'⟩ := pull_self hown fuel
    have hstart := hagree.withSignals own.signals s.signals
    obtain ⟨b', hsame, hnext, hinterrupt⟩ := hstart.pull fuel
      (Machine.untripped_of_none hstart.coherent hnone program fuel)
      (Machine.untripped_of_none hstart.coherentAgainst hnone' program fuel)
    replace hsame : Machine.pull program ((m.against b).withSignals s.signals) fuel = _ := hsame
    rw [hsame, Progress.turn_map] at hturn
    rw [hsame, Progress.rest?_map] at hleft
    refine ⟨hturn.trans hturn'.symm, ?_⟩
    cases hrest : (Machine.pull program (m.withSignals own.signals) fuel).rest? with
    | none =>
      rw [hrest] at hleft hleft'
      exact .ended hleft hleft'
    | some next =>
      rw [hrest] at hleft hleft'
      rw [← Progress.eq_machine_of_rest? hrest] at hnext
      have hkept := Machine.interrupt_pull hstart.coherent program fuel
      rw [← Progress.eq_machine_of_rest? hrest] at hkept
      exact .running hleft hleft' hnext (hkept.trans hnone) (hinterrupt.trans hnone')

theorem drop (h : StandsAlike s own number) : StandsAlike (s.drop number) (own.drop 0) number := by
  cases h with
  | ended h hown => exact .ended (drop_self h) (drop_self hown)
  | running h hown hagree hnone hnone' => exact .ended (drop_self h) (drop_self hown)

/-- Runs that stand alike get the same turns. -/
theorem turnsOf_eq (h : StandsAlike s own number) (later : List Request) :
    turnsOf number s later = turnsOf 0 own (later.filterMap (Request.forRun number)) := by
  induction later generalizing s own with
  | nil => rfl
  | cons request later ih =>
    rw [turnsOf, List.filterMap_cons]
    cases request with
    | start program settings input interrupt =>
      refine ih (h.of_eq ?_)
      rw [serve, start_runs, Array.getElem?_push, if_neg (Nat.ne_of_lt h.lt_size)]
    | cancel flag => exact ih (h.of_eq rfl)
    | wait now => exact ih (h.of_eq rfl)
    | drop asked =>
      by_cases hasked : asked = number
      · subst hasked
        rw [Request.forRun, if_pos rfl]
        exact ih h.drop
      · rw [Request.forRun, if_neg hasked]
        exact ih (h.of_eq (drop_other s hasked))
    | pull asked fuel =>
      by_cases hasked : asked = number
      · subst hasked
        obtain ⟨hturn, hnext⟩ := h.pull fuel
        rw [Request.forRun, if_pos rfl]
        dsimp only
        rw [turnsOf, answer?, answer?, if_pos rfl, if_pos rfl, hturn, serve, serve, ih hnext]
      · rw [Request.forRun, if_neg hasked, answer?, if_neg hasked]
        exact ih (h.of_eq (pull_other s fuel hasked))

end StandsAlike

/-- Whatever machines a pool holds, it hands out one that is as good as new. And whatever a session
has done, and whatever it is asked for afterwards, a run without an interrupt gives for its pulls
what it gives as the only run of a new session. -/
theorem runs_keep_apart :
    (∀ (pool : Pool) (settings : Settings) (input : Value) (interrupt : Option Interrupt),
      (pool.acquire settings input interrupt).1 = Machine.load {} settings input interrupt) ∧
    ∀ (s : Session) (program : Program) (settings : Settings) (input : Value)
      (later : List Request),
      turnsOf s.runs.size (s.start program settings input none).1 later =
        turnsOf 0 (start {} program settings input none).1
          (later.filterMap (Request.forRun s.runs.size)) := by
  refine ⟨acquire_eq, fun s program settings input later => StandsAlike.turnsOf_eq ?_ later⟩
  have hcoherent := Machine.coherent_load {} settings input none
  generalize hm : Machine.load {} settings input none = m at hcoherent
  have hstarted : ∀ s : Session, (s.start program settings input none).1.runs[s.runs.size]? =
      some ⟨program, settings, some m⟩ := by
    intro s
    rw [start_runs, Array.getElem?_push_size, hm]
  have hnone : m.interrupt = none := by
    rw [← hm]
    rfl
  -- the machine agrees with itself
  have hagree : m.Agree program m.backdrop :=
    ⟨⟨rfl, fun _ => rfl⟩, hcoherent, hcoherent, .inl rfl⟩
  exact .running (hstarted s) (hstarted {}) hagree hnone hnone

/-- Gives its input twice. -/
def givingTwice : Program where
  name := "givingTwice"
  code := #[.scope 0 0, .fork 2, .ret]
  functions := #[]
  lines := #[]
  natives := {}

/-- The second run gets the machine that the first one left with a pending branch. -/
example : turnsOf 1 {} [.start givingTwice {} .null none, .pull 0 9, .drop 0,
    .start givingTwice {} (.bool true) none, .pull 1 9, .pull 0 9, .pull 1 9, .pull 1 9] =
      [.gave (some (.ok (.bool true))), .gave (some (.ok (.bool true))), .gave none] := rfl

end Session
end QueryMachine
